import Flark.Kernel.Admission
import Flark.Lib.Runs
import Flark.Session.Holder

/-!
# Sessions

`FlarkSession`: it loads a parser, opens its document with it, and publishes what becomes of
the document to its listeners and its change stream, both of which may call it again.

The model is a machine over the events of its surroundings. Its stack holds the calls that
are under way, the innermost first: a publication that tells the listeners, a change that is
being sent, a call of the editor. Where the innermost runs code of the host, the host may call
the session, and the editor whose reference it has; a load ends only while nothing runs.

What the editor makes of a call is its own matter: here it may publish any sources, in any
number, before it returns or throws. Only a document that is loaded is published as it is,
once or not at all.

* `FlarkSession.Invariant`: what every event keeps;
* `FlarkSession.run_kept`: what holds of leases, futures, revisions and changes after any run;
* `FlarkSession.Invariant.untouched`: nothing happens to a session that is disposed.
-/

namespace Flark

/-- `FlarkEditRejection`. -/
inductive FlarkEditRejection
  | notReady
  | disposed
  | staleRevision
  | invalidSource
  | sourceLimit
  | unsupportedEdit
  | extractionDeviation
  | unavailable
  | readOnly
  deriving DecidableEq, Repr

/-- `FlarkState`, as far as the session decides it. -/
structure FlarkState where
  markdown : Text
  revision : Nat
  status : FlarkStatus
  deriving DecidableEq, Repr

/-- What goes on once a publication is over: the code behind the call of `_publish`. -/
inductive After
  | edited
  | loaded
  | starts (attempt : Nat)
  | refuses (attempt : Nat)
  | opens (attempt : Nat)
  | fails (attempt : Nat)
  | closes
  deriving DecidableEq, Repr

/-- The publication is of an edit or a load. -/
def After.isEdit : After → Bool
  | edited | loaded => true
  | _ => false

structure Publication where
  state : FlarkState
  after : After
  deriving DecidableEq, Repr

/-- A call of the editor: of its `loadMarkdown`, before and after it publishes, or of any other
    that edits. -/
inductive EditorCall
  | edit
  | load (markdown : Text)
  | established
  deriving DecidableEq, Repr

/-- The call once it has published a source; `none` where it cannot publish that. -/
def EditorCall.publish (source : Text) : EditorCall → Option EditorCall
  | edit => some edit
  | load markdown => if source = markdown then some established else none
  | established => none

inductive Frame
  /-- `notifyEach(_listeners)` of `_publish`. -/
  | notifying (after : After)
  /-- `_changes.add` in the loop of `_publish`. -/
  | sending (after : After)
  /-- The loader, called for an attempt. -/
  | loader (attempt : Nat)
  /-- `commandHandler`, with the revisions of the session and of the editor as it was called. -/
  | handling (revision engineRevision : Nat)
  /-- The editor tells its other listeners. -/
  | notified
  | editing (call : EditorCall)
  deriving DecidableEq, Repr

namespace Frame

def isNotifying : Frame → Bool
  | notifying _ => true
  | _ => false

def isSending : Frame → Bool
  | sending _ => true
  | _ => false

/-- A load that the editor has not published. -/
def isLoad : Frame → Bool
  | editing (.load _) => true
  | _ => false

def isHost : Frame → Bool
  | editing _ => false
  | _ => true

/-- The attempt that goes on to await its loader. -/
def awaits : Frame → Option Nat
  | notifying (.starts a) | sending (.starts a) | loader a => some a
  | _ => none

/-- The rest of `dispose` is still to come. -/
def isClosing : Frame → Bool
  | notifying .closes | sending .closes => true
  | _ => false

end Frame

/-- The editor that a session made. -/
structure Engine where
  source : Text
  revision : Nat := 0
  /-- `_edited` is among its listeners, the first of them. -/
  listening : Bool := true
  deriving DecidableEq, Repr

/-- `removeListener(_edited)`. -/
def Engine.removeListener (engine : Engine) : Engine := { engine with listening := false }

structure FlarkSession extends Holder where
  /-- `_markdown`. -/
  markdown : Text
  revision : Nat := 0
  loadingDocument : Bool := false
  publicationDepth : Nat := 0
  sendingChanges : Bool := false
  pendingChanges : List Text := []
  /-- `_changes.isClosed`. -/
  closed : Bool := false
  /-- `commandHandler` is set. -/
  commandHandler : Bool := false
  /-- `_editor` is set. -/
  editor : Bool := false
  /-- The editor that `_editor` was set to: others may hold on to it. -/
  engine : Option Engine := none
  stack : List Frame := []
  /-- The publications, each with what it was of. -/
  published : List Publication := []
  /-- What was sent on the change stream. -/
  sent : List Text := []
  /-- The Markdown after every edit that changed it. -/
  edits : List Text := []
  deriving DecidableEq, Repr

namespace FlarkSession

variable (s : FlarkSession)

/-! ## Publications -/

/-- `_publish`, up to the listeners. -/
def publish (after : After) : FlarkSession := { s with
  published := s.published ++ [⟨⟨s.markdown, s.revision, s.status⟩, after⟩]
  publicationDepth := s.publicationDepth + 1
  stack := .notifying after :: s.stack }

/-- The code behind a publication. A stream cannot be closed while it sends. -/
def resume : After → FlarkSession
  | .edited | .loaded => s
  | .starts a => { s with stack := .loader a :: s.stack }
  | .refuses a | .opens a | .fails a => { s with toHolder := s.complete a }
  | .closes => { s with closed := s.closed || !s.stack.any Frame.isSending }

/-- The loop of `_publish` that sends the changes. -/
def sendNext (after : After) : FlarkSession :=
  match s.pendingChanges, s.closed with
  | change :: rest, false => { s with
      pendingChanges := rest
      sent := s.sent ++ [change]
      stack := .sending after :: s.stack }
  | _, _ => resume { s with sendingChanges := false } after

/-- The rest of `_publish`, once the listeners were told. -/
def sendChanges (after : After) : FlarkSession :=
  let s := { s with publicationDepth := s.publicationDepth - 1 }
  if s.publicationDepth = 0 ∧ s.sendingChanges = false then
    sendNext { s with sendingChanges := true } after
  else resume s after

/-- `_edited`. -/
def edited : FlarkSession :=
  match s.editor, s.engine with
  | true, some engine => publish { s with
      markdown := engine.source
      revision := s.revision + 1
      pendingChanges :=
        if s.loadingDocument = false ∧ s.markdown ≠ engine.source then
          s.pendingChanges ++ [engine.source]
        else s.pendingChanges
      -- Nested edits that a load's notification triggers are edits.
      loadingDocument := false } .edited
  | _, _ => s

/-! ## Attempts -/

/-- `_start`, up to its publication. A refused document fails before a parser loads. -/
def start : FlarkSession :=
  match flarkSourceRefusal s.markdown defaultSourceLimit with
  | some _ => publish { s with toHolder := s.begin .failed } (.refuses s.attempts.length)
  | none => publish { s with toHolder := { s.begin .loading with
      awaiting := s.awaiting ++ [s.attempts.length] } } (.starts s.attempts.length)

/-- The `catch` of an attempt, with the lease that it was given. -/
def attemptFails (a : Nat) (lease : Option Nat) : FlarkSession :=
  let s := if s.lease = lease then { s with lease := none } else s
  let s := { s with toHolder := s.release lease .failed }
  if s.status = .disposed ∨ s.attempt ≠ some a then s
  else publish { s with status := .failed } (.fails a)

/-- How a load ends: with an error, or with a lease, whose parser opens the document or not. -/
inductive Outcome
  | fails
  | gives (opens : Bool)
  deriving DecidableEq, Repr

/-- The rest of an attempt, once its loader has answered. -/
def loadEnds (a : Nat) (outcome : Outcome) : FlarkSession :=
  let s := { s with awaiting := s.awaiting.erase a }
  match outcome with
  | .fails => s.attemptFails a none
  | .gives opens =>
    let lease := s.leases.length
    let s := { s with leases := s.leases ++ [[]] }
    if s.status = .disposed ∨ s.attempt ≠ some a then
      { s with
        toHolder := s.release (some lease)
          (if s.status = .disposed then .onArrival else .superseded) }
    else
      let s := { s with lease := some lease }
      if opens then publish { s with
        editor := true
        engine := some { source := s.markdown }
        status := .ready } (.opens a)
      else s.attemptFails a (some lease)

/-! ## The calls -/

/-- `_guard`. -/
def guard (expected : Option Nat) (allowLoading : Bool) : Option FlarkEditRejection :=
  if s.status = .disposed then some .disposed
  else if expected.any (· ≠ s.revision) then some .staleRevision
  else if allowLoading = false ∧ s.status ≠ .ready then some .notReady
  else none

/-- The host's calls. -/
inductive Call
  | retryLoading
  | loadMarkdown (markdown : Text) (expected : Option Nat)
  | command (expected : Option Nat)
  /-- `replaceSourceRange`, `selectAll` or `setSourceMode`. -/
  | edit (expected : Option Nat)
  | setCommandHandler (set : Bool)
  | dispose
  /-- A call of the editor itself, with the revision of the editor that it expects. -/
  | engine (expected : Option Nat)
  deriving DecidableEq, Repr

/-- The revision that a call expects. -/
def Call.expected : Call → Option Nat
  | loadMarkdown _ expected | command expected | edit expected => expected
  | _ => none

def retryLoading : FlarkSession := if s.status = .failed then s.start else s

def loadMarkdown (markdown : Text) (expected : Option Nat) : FlarkSession :=
  match s.guard expected true, flarkSourceRefusal markdown defaultSourceLimit with
  | none, none =>
    if s.status ≠ .ready then
      publish { s with markdown := markdown, revision := s.revision + 1 } .loaded
    else { s with loadingDocument := true, stack := .editing (.load markdown) :: s.stack }
  | _, _ => s

def edit (expected : Option Nat) : FlarkSession :=
  match s.guard expected false with
  | some _ => s
  | none => { s with stack := .editing .edit :: s.stack }

def command (expected : Option Nat) : FlarkSession :=
  match s.guard expected false, s.engine with
  | none, some engine =>
    if s.commandHandler then { s with stack := .handling s.revision engine.revision :: s.stack }
    else { s with stack := .editing .edit :: s.stack }
  | _, _ => s

/-- A call of the editor that does not come from the session. -/
def callEngine (expected : Option Nat) : FlarkSession :=
  match s.engine with
  | none => s
  | some engine =>
    if expected.any (· ≠ engine.revision) then s
    else { s with stack := .editing .edit :: s.stack }

/-- `dispose`, up to its publication. -/
def dispose : FlarkSession :=
  if s.status = .disposed then s
  else
    let s := { s with
      status := .disposed
      engine := if s.editor then s.engine.map Engine.removeListener else s.engine
      editor := false }
    let s := { s with toHolder := s.drop .disposed }
    let s := { s with pendingChanges := [], commandHandler := false }
    let s := { s with toHolder := s.abandon }
    publish s .closes

def call : Call → FlarkSession
  | .retryLoading => s.retryLoading
  | .loadMarkdown markdown expected => s.loadMarkdown markdown expected
  | .command expected => s.command expected
  | .edit expected => s.edit expected
  | .setCommandHandler set => { s with commandHandler := set }
  | .dispose => s.dispose
  | .engine expected => s.callEngine expected

/-! ## Events -/

inductive Event
  | call (c : Call)
  /-- The innermost call returns. -/
  | returns
  /-- The loader throws before it returns a future. -/
  | loaderThrows
  /-- The editor that is called sets a source and tells its listeners. -/
  | publishes (source : Text)
  | loadEnds (attempt : Nat) (outcome : Outcome)
  deriving DecidableEq, Repr

/-- The innermost call returns, and the code that it was called from goes on. -/
def returns : Option FlarkSession :=
  match s.stack with
  | [] => none
  | .notifying after :: rest => some (sendChanges { s with stack := rest } after)
  | .sending after :: rest => some (sendNext { s with stack := rest } after)
  | .editing (.load _) :: rest | .editing .established :: rest =>
    some { s with stack := rest, loadingDocument := false }
  | _ :: rest => some { s with stack := rest }

def publishes (source : Text) : Option FlarkSession :=
  match s.stack, s.engine with
  | .editing call :: rest, some engine =>
    (call.publish source).map fun published =>
      let s' := { s with
        stack := .notified :: .editing published :: rest
        engine := some { engine with source := source, revision := engine.revision + 1 }
        edits :=
          if engine.listening = true ∧ call = .edit ∧ s.markdown ≠ source then s.edits ++ [source]
          else s.edits }
      if engine.listening then s'.edited else s'
  | _, _ => none

def step : Event → Option FlarkSession
  | .call c => if s.stack.head?.all Frame.isHost then some (s.call c) else none
  | .returns => s.returns
  | .loaderThrows =>
    match s.stack with
    | .loader a :: rest =>
      some (attemptFails { s with stack := rest, awaiting := s.awaiting.erase a } a none)
    | _ => none
  | .publishes source => s.publishes source
  | .loadEnds a outcome =>
    if s.stack = [] ∧ a ∈ s.awaiting then some (s.loadEnds a outcome) else none

/-- The constructor, which starts the first attempt. -/
def create (markdown : Text) : FlarkSession := start { markdown := markdown }

/-! ## What every event keeps -/

/-- The attempts: a lease is held only by a session that is ready, and the calls under way
    that go on to await a loader are those of the awaited attempt. -/
structure Attempting (h : Holder) (stack : List Frame) : Prop where
  owns : h.Owns
  ready : h.lease.isSome = true → h.status = .ready
  awaited : (stack.filterMap Frame.awaits).Sublist h.awaiting

/-- The counter of publications and the flag of sending tell what is under way: one loop at
    most sends the changes. -/
structure Counted (depth : Nat) (sending : Bool) (stack : List Frame) : Prop where
  depth : depth = stack.countP Frame.isNotifying
  sending : sending = stack.any Frame.isSending
  single : stack.countP Frame.isSending ≤ 1

/-- No change is pending while nothing is under way that will send it. -/
def Queued (pending : List Text) (stack : List Frame) : Prop :=
  pending ≠ [] → ∃ f ∈ stack, f.isNotifying = true ∨ f.isSending = true

/-- The changes: those of the edits are sent or pending, in order, until the session is
    disposed. -/
structure Changes (status : FlarkStatus) (closed : Bool) (pending sent edits : List Text)
    (stack : List Frame) : Prop where
  order : status ≠ .disposed → sent ++ pending = edits
  dropped : status = .disposed → pending = [] ∧ sent <+: edits
  closed : closed = true → status = .disposed
  closing : ∀ f ∈ stack, f.isClosing = true → status = .disposed

/-- The editor: it is there, and heard, while the session is ready, and a document that is
    loaded is flagged until the editor publishes it. -/
structure Editing (status : FlarkStatus) (editor : Bool) (engine : Option Engine) (loading : Bool)
    (stack : List Frame) : Prop where
  editor : editor = true ↔ status = .ready
  listening : (∃ e, engine = some e ∧ e.listening = true) ↔ status = .ready
  flag : loading = stack.head?.any Frame.isLoad
  beneath : ∀ f ∈ stack.tail, f.isLoad = false
  loads : loading = true → status = .ready

/-- Each publication of an edit or a load has a revision above those before it. -/
def Rising (published : List Publication) : Prop :=
  published.Pairwise fun p q => p.state.revision ≤ q.state.revision ∧
    (q.after.isEdit = true → p.state.revision < q.state.revision)

/-- The revisions: those published rise, and those of the session and the editor have moved alike
    since a command was handed to the host. -/
structure Revised (revision : Nat) (published : List Publication) (engine : Option Engine)
    (stack : List Frame) : Prop where
  order : Rising published
  bound : ∀ p ∈ published, p.state.revision ≤ revision
  handled : ∀ r r' : Nat, .handling r r' ∈ stack → ∀ e, engine = some e → e.listening = true →
    revision + r' = r + e.revision

/-- What also holds where a publication is over and the code behind it is to go on. -/
structure Settled : Prop where
  attempting : Attempting s.toHolder s.stack
  changes : Changes s.status s.closed s.pendingChanges s.sent s.edits s.stack
  editing : Editing s.status s.editor s.engine s.loadingDocument s.stack
  revised : Revised s.revision s.published s.engine s.stack

structure Invariant : Prop extends s.Settled where
  counted : Counted s.publicationDepth s.sendingChanges s.stack
  queued : Queued s.pendingChanges s.stack

/-! ### Calls under way -/

section

variable {h : Holder} {status : FlarkStatus} {depth revision : Nat} {editor closed : Bool}
  {sending loading : Bool} {pending sent edits : List Text} {published : List Publication}
  {engine : Option Engine} {stack : List Frame} {f : Frame}

/-- A call that awaits nothing leaves the attempt as it was. -/
theorem Attempting.push (ha : Attempting h stack) (hf : f.awaits = none) :
    Attempting h (f :: stack) := by
  refine { ha with awaited := ?_ }
  rw [List.filterMap_cons_none hf]
  exact ha.awaited

/-- A call that returns leaves the attempt as it was. -/
theorem Attempting.pop (ha : Attempting h (f :: stack)) : Attempting h stack := by
  refine { ha with awaited := List.Sublist.trans ?_ ha.awaited }
  exact (List.sublist_cons_self f stack).filterMap _

/-- The end of an attempt that is not the last one leaves it as it was. -/
theorem Attempting.complete (ha : Attempting h stack) (a : Nat) :
    Attempting (h.complete a) stack where
  owns := ha.owns.complete a
  ready := by
    rw [Holder.complete_lease, Holder.complete_status]
    exact ha.ready
  awaited := by
    rw [Holder.complete_awaiting]
    exact ha.awaited

/-- A call that neither notifies nor sends is not counted. -/
theorem Counted.push (hc : Counted depth sending stack) (hnot : f.isNotifying = false)
    (hsend : f.isSending = false) : Counted depth sending (f :: stack) where
  depth := by
    rw [List.countP_cons_of_neg (by simp [hnot])]
    exact hc.depth
  sending := by
    rw [List.any_cons, hsend, Bool.false_or]
    exact hc.sending
  single := by
    rw [List.countP_cons_of_neg (by simp [hsend])]
    exact hc.single

/-- A notification is counted. -/
theorem Counted.notify (hc : Counted depth sending stack) (after : After) :
    Counted (depth + 1) sending (.notifying after :: stack) where
  depth := by
    rw [List.countP_cons_of_pos rfl, hc.depth]
  sending := hc.sending
  single := hc.single

/-- A call that neither notifies nor sends returns uncounted. -/
theorem Counted.pop (hc : Counted depth sending (f :: stack)) (hnot : f.isNotifying = false)
    (hsend : f.isSending = false) : Counted depth sending stack where
  depth := by
    have := hc.depth
    rwa [List.countP_cons_of_neg (by simp [hnot])] at this
  sending := by
    have := hc.sending
    rwa [List.any_cons, hsend, Bool.false_or] at this
  single := by
    have := hc.single
    rwa [List.countP_cons_of_neg (by simp [hsend])] at this

/-- Changes wait for the one that sends, however deep the calls are. -/
theorem Queued.push (hq : Queued pending stack) : Queued pending (f :: stack) := by
  intro hpending
  obtain ⟨g, hg, hkind⟩ := hq hpending
  exact ⟨g, List.mem_cons_of_mem f hg, hkind⟩

/-- Changes wait on after a call returns that does not send. -/
theorem Queued.pop (hq : Queued pending (f :: stack)) (hnot : f.isNotifying = false)
    (hsend : f.isSending = false) : Queued pending stack := by
  intro hpending
  obtain ⟨g, hg, hkind⟩ := hq hpending
  rcases List.mem_cons.1 hg with rfl | hg
  · rw [hnot, hsend] at hkind
    simp at hkind
  · exact ⟨g, hg, hkind⟩

theorem Queued.notify (after : After) : Queued pending (.notifying after :: stack) :=
  fun _ => ⟨_, List.mem_cons_self, Or.inl rfl⟩

/-- A call keeps the order of changes, and closes the stream only once disposed. -/
theorem Changes.push (hc : Changes status closed pending sent edits stack)
    (hf : f.isClosing = true → status = .disposed) :
    Changes status closed pending sent edits (f :: stack) :=
  { hc with closing := List.forall_mem_cons.2 ⟨hf, hc.closing⟩ }

/-- A call that returns keeps the order of changes. -/
theorem Changes.pop (hc : Changes status closed pending sent edits (f :: stack)) :
    Changes status closed pending sent edits stack :=
  { hc with closing := (List.forall_mem_cons.1 hc.closing).2 }

/-- A call that is not a load keeps the editor and the engine together. -/
theorem Editing.push (he : Editing status editor engine false stack) (hf : f.isLoad = false) :
    Editing status editor engine false (f :: stack) where
  editor := he.editor
  listening := he.listening
  flag := hf.symm
  beneath g hg := by
    cases stack with
    | nil => cases hg
    | cons top rest =>
      rcases List.mem_cons.1 hg with rfl | hg
      · exact he.flag.symm
      · exact he.beneath g hg
  loads := nofun

/-- A call that returns keeps the editor and the engine together. -/
theorem Editing.pop (he : Editing status editor engine loading (f :: stack)) :
    Editing status editor engine false stack where
  editor := he.editor
  listening := he.listening
  flag := by
    cases stack with
    | nil => rfl
    | cons top rest => exact (he.beneath top List.mem_cons_self).symm
  beneath g hg := he.beneath g (List.mem_of_mem_tail hg)
  loads := nofun

/-- While the host runs no load is flagged. -/
theorem Editing.loading_eq_false (he : Editing status editor engine loading stack)
    (hhost : stack.head?.all Frame.isHost = true) : loading = false := by
  rw [he.flag]
  cases stack with
  | nil => rfl
  | cons top rest =>
    cases top with
    | editing call => cases hhost
    | _ => rfl

/-- The order of changes does not depend on the status, short of disposal. -/
theorem Changes.inStatus (hc : Changes status closed pending sent edits stack)
    (hne : status ≠ .disposed) (status' : FlarkStatus) (hne' : status' ≠ .disposed) :
    Changes status' closed pending sent edits stack where
  order _ := hc.order hne
  dropped h := absurd h hne'
  closed h := absurd (hc.closed h) hne
  closing f hf h := absurd (hc.closing f hf h) hne

/-- A session that is not ready has no editor, in any such status. -/
theorem Editing.inStatus (he : Editing status editor engine false stack) (hne : status ≠ .ready)
    (status' : FlarkStatus) (hne' : status' ≠ .ready) : Editing status' editor engine false stack where
  editor := ⟨fun h => absurd (he.editor.1 h) hne, fun h => absurd h hne'⟩
  listening := ⟨fun h => absurd (he.listening.1 h) hne, fun h => absurd h hne'⟩
  flag := he.flag
  beneath := he.beneath
  loads := nofun

/-- A call that handles no edit keeps the revisions in order. -/
theorem Revised.push (hr : Revised revision published engine stack)
    (hf : ∀ r r', f ≠ .handling r r') : Revised revision published engine (f :: stack) where
  order := hr.order
  bound := hr.bound
  handled r r' hmem := by
    rcases List.mem_cons.1 hmem with heq | hmem
    · exact absurd heq.symm (hf r r')
    · exact hr.handled r r' hmem

theorem Revised.pop (hr : Revised revision published engine (f :: stack)) :
    Revised revision published engine stack where
  order := hr.order
  bound := hr.bound
  handled r r' hmem := hr.handled r r' (List.mem_cons_of_mem f hmem)

/-- A publication of a revision that is not lower goes on with the order. -/
theorem Rising.append (hr : Rising published) (hbound : ∀ p ∈ published, p.state.revision ≤ revision)
    {p : Publication} (hle : revision ≤ p.state.revision)
    (hedit : p.after.isEdit = true → revision < p.state.revision) :
    Rising (published ++ [p]) ∧ ∀ q ∈ published ++ [p], q.state.revision ≤ p.state.revision := by
  refine ⟨List.pairwise_append.2 ⟨hr, List.pairwise_singleton _ _, fun q hq p' hp' => ?_⟩, ?_⟩
  · obtain rfl := List.mem_singleton.1 hp'
    have hq := hbound q hq
    exact ⟨hq.trans hle, fun hafter => hq.trans_lt (hedit hafter)⟩
  · intro q hq
    rcases List.mem_append.1 hq with hq | hq
    · exact (hbound q hq).trans hle
    · exact (congrArg (fun p => p.state.revision) (List.mem_singleton.1 hq)).le

/-- A publication that is no edit keeps the revisions in order. -/
theorem Revised.publish (hr : Revised revision published engine stack) (markdown : Text)
    (status' : FlarkStatus) (after : After) (hafter : after.isEdit = false) :
    Revised revision (published ++ [⟨⟨markdown, revision, status'⟩, after⟩]) engine
      (.notifying after :: stack) := by
  obtain ⟨horder, hbound⟩ := hr.order.append hr.bound (p := ⟨⟨markdown, revision, status'⟩, after⟩)
    le_rfl fun hedit => by rw [hafter] at hedit; cases hedit
  exact ⟨horder, hbound, (hr.push (f := .notifying after) fun _ _ h => nomatch h).handled⟩

/-- The publication of an edit or a load, with the revision it makes. -/
theorem Revised.edit (hr : Revised revision published engine stack) (markdown : Text)
    (after : After) {engine' : Option Engine}
    (hhandled : ∀ r r' : Nat, .handling r r' ∈ stack → ∀ e, engine' = some e → e.listening = true →
      revision + 1 + r' = r + e.revision) :
    Revised (revision + 1) (published ++ [⟨⟨markdown, revision + 1, status⟩, after⟩]) engine'
      (.notifying after :: stack) := by
  obtain ⟨horder, hbound⟩ := hr.order.append hr.bound
    (p := ⟨⟨markdown, revision + 1, status⟩, after⟩) (Nat.le_succ _) fun _ => Nat.lt_succ_self _
  refine ⟨horder, hbound, fun r r' hmem => ?_⟩
  rcases List.mem_cons.1 hmem with heq | hmem
  · cases heq
  · exact hhandled r r' hmem

end

variable {s}

/-! ### Publications -/

/-- The code behind a publication goes on. -/
theorem Invariant.resume (h : s.Invariant) {after : After}
    (hawaited : ((Frame.notifying after :: s.stack).filterMap Frame.awaits).Sublist s.awaiting)
    (hclosing : after = .closes → s.status = .disposed) (hload : s.loadingDocument = false) :
    (s.resume after).Invariant := by
  cases after with
  | edited | loaded => exact h
  | starts a =>
    exact {
      attempting := { h.attempting with awaited := hawaited }
      changes := h.changes.push nofun
      editing := by
        have := h.editing
        rw [hload] at this
        have hpush := this.push (f := .loader a) rfl
        rw [← hload] at hpush
        exact hpush
      revised := h.revised.push fun _ _ h => nomatch h
      counted := h.counted.push rfl rfl
      queued := h.queued.push }
  | refuses a | opens a | fails a =>
    exact { h with
      attempting := h.attempting.complete a
      changes := by
        have := h.changes
        rw [← Holder.complete_status a] at this
        exact this
      editing := by
        have := h.editing
        rw [← Holder.complete_status a] at this
        exact this }
  | closes =>
    exact { h with changes := { h.changes with closed := fun _ => hclosing rfl } }

/-- The next change is sent, or the loop is over. -/
theorem Settled.sendNext (h : s.Settled) {after : After}
    (hdepth : s.publicationDepth = s.stack.countP Frame.isNotifying)
    (hsending : s.sendingChanges = true) (hnone : s.stack.countP Frame.isSending = 0)
    (hawaited : ((Frame.notifying after :: s.stack).filterMap Frame.awaits).Sublist s.awaiting)
    (hclosing : after = .closes → s.status = .disposed) (hload : s.loadingDocument = false) :
    (s.sendNext after).Invariant := by
  have hany : s.stack.any Frame.isSending = false :=
    List.any_eq_false.2 (List.countP_eq_zero.1 hnone)
  rw [FlarkSession.sendNext]
  split
  · next change rest hpending _ =>
    exact {
      attempting := { h.attempting with
        awaited := by
          cases after <;> exact hawaited }
      changes := by
        have hpush := h.changes.push (f := .sending after) fun hafter =>
          hclosing (by cases after <;> first | rfl | cases hafter)
        refine { hpush with order := fun hstatus => ?_, dropped := fun hstatus => ?_ }
        · rw [← hpush.order hstatus, hpending, List.append_assoc]
          rfl
        · rw [hpending] at hpush
          cases (hpush.dropped hstatus).1
      editing := by
        have := h.editing
        rw [hload] at this
        have hpush := this.push (f := .sending after) rfl
        rw [← hload] at hpush
        exact hpush
      revised := h.revised.push fun _ _ h => nomatch h
      counted := ⟨by rw [hdepth, List.countP_cons_of_neg Bool.false_ne_true], by rw [hsending]; rfl,
        by rw [List.countP_cons_of_pos rfl, hnone]⟩
      queued := fun _ => ⟨_, List.mem_cons_self, Or.inr rfl⟩ }
  · next hnot =>
    -- Nothing is pending: a stream is closed only by a session that is disposed.
    have hpending : s.pendingChanges = [] := by
      cases hclosed : s.closed with
      | true => exact (h.changes.dropped (h.changes.closed hclosed)).1
      | false =>
        cases hpending : s.pendingChanges with
        | nil => rfl
        | cons change rest => exact absurd hclosed (hnot change rest hpending)
    have hover : Invariant { s with sendingChanges := false } :=
      { h with
        counted := ⟨hdepth, hany.symm, hnone.le.trans (Nat.zero_le 1)⟩
        queued := fun hne => absurd hpending hne }
    exact hover.resume hawaited hclosing hload

/-- The listeners of a publication were told. -/
theorem Settled.sendChanges (h : s.Settled) {after : After}
    (hcounted : Counted s.publicationDepth s.sendingChanges (.notifying after :: s.stack))
    (hawaited : ((Frame.notifying after :: s.stack).filterMap Frame.awaits).Sublist s.awaiting)
    (hclosing : after = .closes → s.status = .disposed) (hload : s.loadingDocument = false) :
    (s.sendChanges after).Invariant := by
  have hdepth : s.publicationDepth - 1 = s.stack.countP Frame.isNotifying := by
    have := hcounted.depth
    rw [List.countP_cons_of_pos rfl] at this
    omega
  have hsending : s.sendingChanges = s.stack.any Frame.isSending := hcounted.sending
  rw [FlarkSession.sendChanges]
  dsimp only
  split
  · next hlast =>
    have hnone : s.stack.countP Frame.isSending = 0 := by
      rw [List.countP_eq_zero]
      intro f hf hsend
      have := List.any_eq_true.2 ⟨f, hf, hsend⟩
      rw [← hsending, hlast.2] at this
      cases this
    have hflag : Settled { s with
        publicationDepth := s.publicationDepth - 1
        sendingChanges := true } := { h with }
    exact hflag.sendNext hdepth rfl hnone hawaited hclosing hload
  · next hnot =>
    have hover : Invariant { s with publicationDepth := s.publicationDepth - 1 } :=
      { h with
        counted := ⟨hdepth, hsending, hcounted.single⟩
        -- An outer publication will send what is pending, or the loop under way.
        queued := fun _ => by
          by_cases hzero : s.publicationDepth - 1 = 0
          · have hon : s.sendingChanges = true := by
              rw [← Bool.not_eq_false]
              exact fun hoff => hnot ⟨hzero, hoff⟩
            rw [hsending, List.any_eq_true] at hon
            obtain ⟨f, hf, hsend⟩ := hon
            exact ⟨f, hf, Or.inr hsend⟩
          · rw [hdepth] at hzero
            obtain ⟨f, hf, hkind⟩ := List.countP_pos_iff.1 (Nat.pos_of_ne_zero hzero)
            exact ⟨f, hf, Or.inl hkind⟩ }
    exact hover.resume hawaited hclosing hload

/-- A publication starts to tell the listeners. -/
theorem publish_invariant {after : After} (ha : Attempting s.toHolder s.stack)
    (hchanges : Changes s.status s.closed s.pendingChanges s.sent s.edits s.stack)
    (hediting : Editing s.status s.editor s.engine s.loadingDocument s.stack)
    (hcounted : Counted s.publicationDepth s.sendingChanges s.stack)
    (hrevised : Revised s.revision (s.published ++ [⟨⟨s.markdown, s.revision, s.status⟩, after⟩])
      s.engine (.notifying after :: s.stack))
    (hawaited : ((Frame.notifying after :: s.stack).filterMap Frame.awaits).Sublist s.awaiting)
    (hclosing : after = .closes → s.status = .disposed) (hload : s.loadingDocument = false) :
    (s.publish after).Invariant where
  attempting := { ha with awaited := hawaited }
  changes := hchanges.push fun hafter => hclosing (by cases after <;> first | rfl | cases hafter)
  editing := by
    rw [hload] at hediting
    have hpush := hediting.push (f := .notifying after) rfl
    rw [← hload] at hpush
    exact hpush
  revised := hrevised
  counted := hcounted.notify after
  queued := Queued.notify after

/-- The editor that is called publishes a source. -/
theorem Invariant.publishes (h : s.Invariant) {source : Text} {s' : FlarkSession}
    (hs' : s.publishes source = some s') : s'.Invariant := by
  rw [FlarkSession.publishes] at hs'
  split at hs'
  · next call rest engine hstack hengine =>
    obtain ⟨published, hpublish, rfl⟩ := Option.map_eq_some_iff.1 hs'
    obtain ⟨⟨hattempting, hchanges, hediting, hrevised⟩, hcounted, hqueued⟩ := h
    rw [hstack] at hattempting hchanges hediting hrevised hcounted hqueued
    have hnotLoad : (Frame.editing published).isLoad = false := by
      cases call with
      | edit =>
        cases hpublish
        rfl
      | load markdown =>
        simp only [EditorCall.publish] at hpublish
        split at hpublish
        · cases hpublish
          rfl
        · cases hpublish
      | established => cases hpublish
    have hattempting' : Attempting s.toHolder (.notified :: .editing published :: rest) :=
      (hattempting.pop.push (f := .editing published) rfl).push (f := .notified) rfl
    have hcounted' : Counted s.publicationDepth s.sendingChanges
        (.notified :: .editing published :: rest) :=
      ((hcounted.pop rfl rfl).push (f := .editing published) rfl rfl).push (f := .notified) rfl rfl
    have hstackChanges : Changes s.status s.closed s.pendingChanges s.sent s.edits
        (.notified :: .editing published :: rest) :=
      (hchanges.pop.push (f := .editing published) nofun).push (f := .notified) nofun
    have hqueued' : Queued s.pendingChanges (.notified :: .editing published :: rest) :=
      ((hqueued.pop rfl rfl).push (f := .editing published)).push (f := .notified)
    have hediting' : Editing s.status s.editor s.engine false
        (.notified :: .editing published :: rest) :=
      (hediting.pop.push hnotLoad).push (f := .notified) rfl
    have hrevised' : Revised s.revision s.published s.engine
        (.notified :: .editing published :: rest) :=
      (hrevised.pop.push (f := .editing published) fun _ _ h => nomatch h).push (f := .notified)
        fun _ _ h => nomatch h
    have hlistens : (∃ e, some ({ engine with source := source, revision := engine.revision + 1 } :
        Engine) = some e ∧ e.listening = true) ↔ s.status = .ready := by
      rw [← hediting.listening, hengine]
      simp
    by_cases hlistening : engine.listening = true
    · have hready : s.status = .ready := hediting.listening.1 ⟨engine, hengine, hlistening⟩
      have heditor : s.editor = true := hediting.editor.2 hready
      dsimp only
      rw [if_pos hlistening, edited]
      simp only [heditor]
      have hediting'' := { hediting' with listening := hlistens }
      rw [heditor] at hediting''
      refine publish_invariant hattempting' ?_ hediting'' hcounted' ?_ hattempting'.awaited nofun rfl
      · refine { hstackChanges with
          order := fun hne => ?_
          dropped := fun hdisposed => by rw [hready] at hdisposed; cases hdisposed }
        have horder := hchanges.order hne
        have hflag := hediting.flag
        -- A load is flagged and not recorded, any other edit is neither.
        cases call with
        | edit =>
          have hplain : s.loadingDocument = false := hflag
          simp only [hlistening, hplain, true_and, ← horder]
          split
          · exact (List.append_assoc _ _ _).symm
          · rfl
        | load markdown =>
          have hloading : s.loadingDocument = true := hflag
          simp only [hloading, reduceCtorEq, false_and, and_false, if_false]
          exact horder
        | established => cases hpublish
      · refine hrevised'.edit source .edited fun r r' hmem e he hlistens => ?_
        cases he
        have := hrevised'.handled r r' hmem engine hengine hlistening
        dsimp only
        omega
    · dsimp only
      rw [if_neg hlistening]
      refine ⟨⟨hattempting', ?_, ?_, ?_⟩, hcounted', hqueued'⟩
      · rw [if_neg fun h => hlistening h.1]
        exact hstackChanges
      · have hplain : s.loadingDocument = false := by
          rw [← Bool.not_eq_true]
          intro hloading
          obtain ⟨e, he, hl⟩ := hediting.listening.2 (hediting.loads hloading)
          rw [hengine] at he
          cases he
          exact hlistening hl
        rw [hplain]
        exact { hediting' with listening := hlistens }
      · exact { hrevised' with
          handled := fun r r' _ e he hl => by
            cases he
            exact absurd hl hlistening }
  · cases hs'

/-! ### Attempts -/

/-- What the leases and the futures do leaves the rest alone. -/
theorem Invariant.withHolder (h : s.Invariant) {holder : Holder} (ha : Attempting holder s.stack)
    (hstatus : holder.status = s.status) : Invariant { s with toHolder := holder } where
  attempting := ha
  changes := by
    rw [hstatus]
    exact h.changes
  editing := by
    rw [hstatus]
    exact h.editing
  revised := h.revised
  counted := h.counted
  queued := h.queued

/-- A publication of a new status, of a session that is not ready and stays so. -/
theorem Invariant.publish_status (h : s.Invariant) (hne : s.status ≠ .disposed)
    (hready : s.status ≠ .ready) (hload : s.loadingDocument = false) {holder : Holder}
    (ha : Attempting holder s.stack) (hne' : holder.status ≠ .disposed)
    (hready' : holder.status ≠ .ready) {after : After} (hafter : after.isEdit = false)
    (hawaited : ((Frame.notifying after :: s.stack).filterMap Frame.awaits).Sublist holder.awaiting)
    (hclosing : after ≠ .closes) : (publish { s with toHolder := holder } after).Invariant := by
  have hediting := h.editing
  rw [hload] at hediting
  refine publish_invariant ha (h.changes.inStatus hne _ hne') ?_ h.counted
    (h.revised.publish s.markdown _ _ hafter) hawaited (fun heq => absurd heq hclosing) hload
  rw [show ({ s with toHolder := holder } : FlarkSession).loadingDocument = false from hload]
  exact hediting.inStatus hready _ hready'

/-- An attempt is started where none runs. -/
theorem Invariant.start (h : s.Invariant) (hlease : s.lease = none) (hawaiting : s.awaiting = [])
    (hne : s.status ≠ .disposed) (hready : s.status ≠ .ready) (hload : s.loadingDocument = false) :
    s.start.Invariant := by
  have hawaited := h.attempting.awaited
  rw [hawaiting, List.sublist_nil] at hawaited
  rw [FlarkSession.start]
  split
  · refine h.publish_status hne hready hload
      ⟨h.attempting.owns.begin_failed hawaiting, fun hsome => ?_, h.attempting.awaited⟩ (fun h => by cases h)
      (fun h => by cases h) rfl
      h.attempting.awaited fun h => by cases h
    exact absurd hsome (by simp [Holder.begin, hlease])
  · refine h.publish_status hne hready hload
      ⟨h.attempting.owns.begin_loading hlease hawaiting, fun hsome => ?_, ?_⟩ (fun h => by cases h)
      (fun h => by cases h) rfl ?_ fun h => by cases h
    · exact absurd hsome (by simp [Holder.begin, hlease])
    · rw [hawaited]
      exact List.nil_sublist _
    · change (s.attempts.length :: s.stack.filterMap Frame.awaits).Sublist
        (s.awaiting ++ [s.attempts.length])
      rw [hawaited, hawaiting]
      exact List.Sublist.refl _

/-- The attempt fails, once what it was given is disposed. -/
theorem Invariant.fails (h : s.Invariant) (hawaiting : s.awaiting = []) (hstatus : s.status = .loading)
    (hload : s.loadingDocument = false) (a : Nat) :
    (publish { s with status := .failed } (.fails a)).Invariant := by
  have hlease := h.attempting.owns.free (Or.inl hstatus)
  refine h.publish_status (by simp [hstatus]) (by simp [hstatus]) hload
    ⟨h.attempting.owns.fails hawaiting, fun hsome => ?_, h.attempting.awaited⟩ nofun nofun rfl
    h.attempting.awaited nofun
  exact absurd hsome (by simp [hlease])

/-- An attempt that failed without a lease publishes its failure, if it is the current one. -/
theorem attemptFails_none (hlease : s.lease = none) (a : Nat) : s.attemptFails a none =
    if s.status = .disposed ∨ s.attempt ≠ some a then s
    else publish { s with status := .failed } (.fails a) := by
  have hsame : (if s.lease = none then { s with lease := none } else s) = s := by
    rw [if_pos hlease, ← hlease]
  rw [attemptFails, hsame]
  rfl

/-- A lease given to an attempt that failed is released with the failure. -/
theorem attemptFails_given (hlease : s.lease = none) (a : Nat) :
    attemptFails { s with leases := s.leases ++ [[]], lease := some s.leases.length } a
      (some s.leases.length) =
    if s.status = .disposed ∨ s.attempt ≠ some a then
      { s with leases := s.leases ++ [[.failed]] }
    else publish { s with leases := s.leases ++ [[.failed]], status := .failed } (.fails a) := by
  have hrelease : ({ s.toHolder with leases := s.leases ++ [[]], lease := none } : Holder).release
      (some s.leases.length) .failed =
      { s.toHolder with leases := s.leases ++ [[.failed]] } := by
    rw [Holder.release, Holder.release_given, ← hlease]
  rw [attemptFails, if_pos rfl]
  dsimp only
  rw [hrelease]

/-- The attempt fails without having been given a lease. -/
theorem Invariant.attemptFails (h : s.Invariant) (hawaiting : s.awaiting = [])
    (hstatus : s.status = .loading ∨ s.status = .disposed) (hload : s.loadingDocument = false)
    (a : Nat) : (s.attemptFails a none).Invariant := by
  rw [attemptFails_none (h.attempting.owns.free hstatus)]
  split
  · exact h
  · next hcurrent =>
    exact h.fails hawaiting (hstatus.resolve_right fun hgone => hcurrent (Or.inl hgone)) hload a

/-- The load is over. -/
theorem Invariant.answered (h : s.Invariant) (a : Nat)
    (hawaited : (s.stack.filterMap Frame.awaits).Sublist (s.awaiting.erase a)) :
    Invariant { s with awaiting := s.awaiting.erase a } :=
  h.withHolder ⟨h.attempting.owns.answered a, h.attempting.ready, hawaited⟩ rfl

/-- The end of a load keeps the invariant, one case for each outcome and each attempt. -/
theorem Invariant.loadEnds (h : s.Invariant) (hstack : s.stack = []) {a : Nat} (ha : a ∈ s.awaiting)
    (outcome : Outcome) : (s.loadEnds a outcome).Invariant := by
  have howns := h.attempting.owns
  have herase := howns.erase_eq_nil ha
  obtain ⟨hstatus, hattempt⟩ := howns.awaited a ha
  have hlease := howns.free hstatus
  have hload : s.loadingDocument = false := by
    rw [h.editing.flag, hstack]
    rfl
  have hanswered : Invariant { s with awaiting := s.awaiting.erase a } := by
    refine h.answered a ?_
    rw [hstack]
    exact List.nil_sublist _
  -- What a load gives is of use to the current attempt only. The others, and all of them once
  -- disposed, give it back.
  cases outcome with
  | fails => exact hanswered.attemptFails herase hstatus hload a
  | gives opens =>
    simp only [FlarkSession.loadEnds]
    rcases hstatus with hloading | hdisposed
    · rw [if_neg (by simp [hloading, hattempt])]
      cases opens with
      | true =>
        rw [if_pos rfl]
        refine publish_invariant ⟨howns.opened hlease ha, fun _ => rfl, ?_⟩
          (h.changes.inStatus (by simp [hloading]) _ fun h => by cases h) ?_ h.counted ?_ ?_
          (fun h => by cases h) hload
        · rw [hstack]
          exact List.nil_sublist _
        · exact {
            editor := ⟨fun _ => rfl, fun _ => rfl⟩
            listening := ⟨fun _ => rfl, fun _ => ⟨_, rfl, rfl⟩⟩
            flag := h.editing.flag
            beneath := h.editing.beneath
            loads := fun _ => rfl }
        · have hrevised := h.revised
          rw [hstack] at hrevised
          have hquiet : Revised s.revision s.published (some { source := s.markdown }) [] :=
            { hrevised with handled := fun _ _ hmem => absurd hmem List.not_mem_nil }
          have hpublish := hquiet.publish s.markdown .ready (.opens a) rfl
          rw [← hstack] at hpublish
          exact hpublish
        · rw [hstack]
          exact List.nil_sublist _
      | false =>
        rw [if_neg Bool.false_ne_true]
        have heq := attemptFails_given (s := { s with awaiting := s.awaiting.erase a }) hlease a
        dsimp only at heq
        rw [heq, if_neg (by simp [hloading, hattempt])]
        have hgiven : Invariant { s with
            awaiting := s.awaiting.erase a
            leases := s.leases ++ [[.failed]] } := by
          refine hanswered.withHolder ⟨hanswered.attempting.owns.released_append (fun h => by cases h), ?_,
            hanswered.attempting.awaited⟩ rfl
          exact h.attempting.ready
        exact hgiven.fails herase hloading hload a
    · rw [if_pos (Or.inl hdisposed), if_pos hdisposed]
      simp only [Holder.release, Holder.release_given]
      exact hanswered.withHolder ⟨hanswered.attempting.owns.released_append (fun h => by cases h),
        h.attempting.ready, hanswered.attempting.awaited⟩ rfl

/-! ### Calls -/

section

variable (h : s.Invariant) (hhost : s.stack.head?.all Frame.isHost = true)

include h hhost

/-- A call goes on with a frame of its own. -/
theorem Invariant.push {f : Frame} (hawaits : f.awaits = none) (hnot : f.isNotifying = false)
    (hsend : f.isSending = false) (hclosing : f.isClosing = false) (hload : f.isLoad = false)
    (hhandled : ∀ r r', f ≠ .handling r r') : Invariant { s with stack := f :: s.stack } where
  attempting := h.attempting.push hawaits
  changes := h.changes.push fun hf => by rw [hclosing] at hf; cases hf
  editing := by
    have hflag := h.editing.loading_eq_false hhost
    have := h.editing
    rw [hflag] at this
    have hpush := this.push hload
    rw [← hflag] at hpush
    exact hpush
  revised := h.revised.push hhandled
  counted := h.counted.push hnot hsend
  queued := h.queued.push

/-- Disposal keeps the invariant. -/
theorem Invariant.dispose : s.dispose.Invariant := by
  have hload := h.editing.loading_eq_false hhost
  rw [FlarkSession.dispose]
  split
  · exact h
  · next hne =>
    -- What is held goes, and the future of the attempt is completed.
    have howns : Holder.Owns { s.toHolder.drop .disposed with status := .disposed } :=
      (h.attempting.owns.drop .disposed nofun).disposed rfl
    rw [← Holder.drop_withStatus] at howns
    have ha : Attempting (Holder.drop { s.toHolder with status := .disposed } .disposed).abandon
        s.stack := by
      refine ⟨howns.abandon, fun hsome => ?_, ?_⟩
      · rw [Holder.abandon_lease] at hsome
        cases hsome
      · rw [Holder.abandon_awaiting, Holder.drop_awaiting]
        exact h.attempting.awaited
    have hdisposed : (Holder.drop { s.toHolder with status := .disposed } .disposed).abandon.status =
        .disposed := by
      rw [Holder.abandon_status, Holder.drop_status]
    have hdeaf : ∀ e, (if s.editor then s.engine.map Engine.removeListener else s.engine) = some e →
        e.listening = false := by
      intro e he
      split at he
      · obtain ⟨e', -, rfl⟩ := Option.map_eq_some_iff.1 he
        rfl
      · next heditor =>
        rw [← Bool.not_eq_true]
        exact fun hl => heditor (h.editing.editor.2 (h.editing.listening.1 ⟨e, he, hl⟩))
    refine publish_invariant ha ?_ ?_ h.counted ?_ ha.awaited (fun _ => hdisposed) hload
    · exact {
        order := fun hnot => absurd hdisposed hnot
        dropped := fun _ => ⟨rfl, s.pendingChanges, h.changes.order hne⟩
        closed := fun _ => hdisposed
        closing := fun _ _ _ => hdisposed }
    · refine {
        editor := ⟨nofun, fun hready => ?_⟩
        listening := ⟨fun ⟨e, he, hl⟩ => ?_, fun hready => ?_⟩
        flag := h.editing.flag
        beneath := h.editing.beneath
        loads := fun hl => ?_ }
      · exact absurd (hdisposed.symm.trans hready) nofun
      · rw [hdeaf e he] at hl
        cases hl
      · exact absurd (hdisposed.symm.trans hready) nofun
      · exact absurd (hload.symm.trans hl) nofun
    · have hrevised := h.revised.publish s.markdown
        (Holder.drop { s.toHolder with status := .disposed } .disposed).abandon.status .closes rfl
      exact { hrevised with
        handled := fun r r' _ e he hl => by
          rw [hdeaf e he] at hl
          cases hl }

/-- Loading a text keeps the invariant, where it is guarded and where it is not. -/
theorem Invariant.loadMarkdown (markdown : Text) (expected : Option Nat) :
    (s.loadMarkdown markdown expected).Invariant := by
  have hload := h.editing.loading_eq_false hhost
  rw [FlarkSession.loadMarkdown]
  split
  · split
    · next hready =>
      refine publish_invariant h.attempting h.changes h.editing h.counted
        (h.revised.edit markdown .loaded fun r r' hmem e he hl => ?_) h.attempting.awaited nofun hload
      exact absurd (h.editing.listening.1 ⟨e, he, hl⟩) hready
    · next hready =>
      have hready : s.status = .ready := not_not.1 hready
      -- The load is flagged until the editor publishes it.
      have hpush := h.editing
      rw [hload] at hpush
      exact {
        attempting := h.attempting.push rfl
        changes := h.changes.push nofun
        editing := {
          editor := h.editing.editor
          listening := h.editing.listening
          flag := rfl
          beneath := fun f hf => by
            cases hstack : s.stack with
            | nil => rw [hstack] at hf; cases hf
            | cons top rest =>
              rw [hstack] at hf hpush
              rcases List.mem_cons.1 hf with rfl | hf
              · exact hpush.flag.symm
              · exact hpush.beneath f hf
          loads := fun _ => hready }
        revised := h.revised.push fun _ _ h => nomatch h
        counted := h.counted.push rfl rfl
        queued := h.queued.push }
  · exact h

/-- An edit keeps the invariant. -/
theorem Invariant.edit (expected : Option Nat) : (s.edit expected).Invariant := by
  rw [FlarkSession.edit]
  split
  · exact h
  · exact h.push hhost rfl rfl rfl rfl rfl fun _ _ h => nomatch h

/-- A command keeps the invariant. -/
theorem Invariant.command (expected : Option Nat) : (s.command expected).Invariant := by
  rw [FlarkSession.command]
  split
  · next engine _ hengine =>
    split
    · have hflag := h.editing.loading_eq_false hhost
      have hediting := h.editing
      rw [hflag] at hediting
      have hpush := hediting.push (f := .handling s.revision engine.revision) rfl
      rw [← hflag] at hpush
      exact {
        attempting := h.attempting.push rfl
        changes := h.changes.push nofun
        editing := hpush
        revised := { h.revised with
          handled := fun r r' hmem e he hl => by
            rcases List.mem_cons.1 hmem with heq | hmem
            · cases heq
              rw [hengine] at he
              cases he
              rfl
            · exact h.revised.handled r r' hmem e he hl }
        counted := h.counted.push rfl rfl
        queued := h.queued.push }
    · exact h.push hhost rfl rfl rfl rfl rfl fun _ _ h => nomatch h
  · exact h

/-- A call to the engine keeps the invariant. -/
theorem Invariant.callEngine (expected : Option Nat) : (s.callEngine expected).Invariant := by
  rw [FlarkSession.callEngine]
  split
  · exact h
  · split
    · exact h
    · exact h.push hhost rfl rfl rfl rfl rfl fun _ _ h => nomatch h

/-- Another attempt to load keeps the invariant. -/
theorem Invariant.retryLoading : s.retryLoading.Invariant := by
  rw [FlarkSession.retryLoading]
  split
  · next hfailed =>
    have hlease : s.lease = none := by
      rw [← Option.not_isSome_iff_eq_none]
      intro hsome
      have := h.attempting.ready hsome
      rw [hfailed] at this
      cases this
    exact h.start hlease (h.attempting.owns.awaiting_eq_nil (Or.inr hfailed)) (by simp [hfailed])
      (by simp [hfailed]) (h.editing.loading_eq_false hhost)
  · exact h

/-- Every call keeps the invariant. -/
theorem Invariant.call (c : Call) : (s.call c).Invariant := by
  cases c with
  | retryLoading => exact h.retryLoading hhost
  | loadMarkdown markdown expected => exact h.loadMarkdown hhost markdown expected
  | command expected => exact h.command hhost expected
  | edit expected => exact h.edit hhost expected
  | setCommandHandler set => exact { h with }
  | dispose => exact h.dispose hhost
  | engine expected => exact h.callEngine hhost expected

end

/-! ### Events -/

/-- The code that the innermost call was called from goes on. -/
theorem Invariant.returns (h : s.Invariant) {s' : FlarkSession} (hs' : s.returns = some s') :
    s'.Invariant := by
  obtain ⟨⟨hattempting, hchanges, hediting, hrevised⟩, hcounted, hqueued⟩ := h
  rw [FlarkSession.returns] at hs'
  cases hstack : s.stack with
  | nil =>
    rw [hstack] at hs'
    cases hs'
  | cons top rest =>
    rw [hstack] at hs' hattempting hchanges hediting hrevised hcounted hqueued
    have hflag := hediting.flag
    have hover : Settled { s with stack := rest, loadingDocument := false } :=
      ⟨hattempting.pop, hchanges.pop, hediting.pop, hrevised.pop⟩
    -- What goes on is said by the frame on top; the stack beneath it is settled.
    cases top with
    | notifying after =>
      have hload : s.loadingDocument = false := hflag
      rw [← hload] at hover
      cases hs'
      exact hover.sendChanges hcounted hattempting.awaited
        (fun heq => hchanges.closing _ List.mem_cons_self (by rw [heq]; rfl)) hload
    | sending after =>
      have hload : s.loadingDocument = false := hflag
      rw [← hload] at hover
      cases hs'
      have hnone : rest.countP Frame.isSending = 0 := by
        have := hcounted.single
        rw [List.countP_cons_of_pos rfl] at this
        omega
      refine hover.sendNext ?_ hcounted.sending hnone ?_
        (fun heq => hchanges.closing _ List.mem_cons_self (by rw [heq]; rfl)) hload
      · have := hcounted.depth
        rwa [List.countP_cons_of_neg Bool.false_ne_true] at this
      · have := hattempting.awaited
        cases after <;> exact this
    | editing call =>
      have hdone : Invariant { s with stack := rest, loadingDocument := false } :=
        { hover with counted := hcounted.pop rfl rfl, queued := hqueued.pop rfl rfl }
      cases call with
      | edit =>
        have hload : s.loadingDocument = false := hflag
        rw [← hload] at hdone
        cases hs'
        exact hdone
      | load markdown | established =>
        cases hs'
        exact hdone
    | loader a | handling r r' | notified =>
      have hload : s.loadingDocument = false := hflag
      rw [← hload] at hover
      cases hs'
      exact { hover with counted := hcounted.pop rfl rfl, queued := hqueued.pop rfl rfl }

/-- The loader throws at once: it is over as where its future fails. -/
theorem Invariant.loaderThrows (h : s.Invariant) {a : Nat} {rest : List Frame}
    (hstack : s.stack = .loader a :: rest) :
    (FlarkSession.attemptFails { s with stack := rest, awaiting := s.awaiting.erase a } a
      none).Invariant := by
  obtain ⟨⟨hattempting, hchanges, hediting, hrevised⟩, hcounted, hqueued⟩ := h
  rw [hstack] at hattempting hchanges hediting hrevised hcounted hqueued
  have hload : s.loadingDocument = false := hediting.flag
  have hsub : (a :: rest.filterMap Frame.awaits).Sublist s.awaiting := hattempting.awaited
  have ha : a ∈ s.awaiting := hsub.subset List.mem_cons_self
  have herase := hattempting.owns.erase_eq_nil ha
  have hrest : rest.filterMap Frame.awaits = [] := by
    have := hsub.erase a
    rw [List.erase_cons_head, herase, List.sublist_nil] at this
    exact this
  have hediting' := hediting.pop
  rw [← hload] at hediting'
  have hover : Invariant { s with stack := rest, awaiting := s.awaiting.erase a } := {
    attempting := ⟨hattempting.owns.answered a, hattempting.ready, by
      rw [hrest]
      exact List.nil_sublist _⟩
    changes := hchanges.pop
    editing := hediting'
    revised := hrevised.pop
    counted := hcounted.pop rfl rfl
    queued := hqueued.pop rfl rfl }
  exact hover.attemptFails herase (hattempting.owns.awaited a ha).1 hload a

/-- Every event keeps the invariant. -/
theorem Invariant.step (h : s.Invariant) {e : Event} {s' : FlarkSession} (hs' : s.step e = some s') :
    s'.Invariant := by
  cases e with
  | call c =>
    rw [FlarkSession.step] at hs'
    split at hs'
    · next hhost =>
      cases hs'
      exact h.call hhost c
    · cases hs'
  | returns => exact h.returns hs'
  | loaderThrows =>
    rw [FlarkSession.step] at hs'
    split at hs'
    · next hstack =>
      cases hs'
      exact h.loaderThrows hstack
    · cases hs'
  | publishes source => exact h.publishes hs'
  | loadEnds a outcome =>
    rw [FlarkSession.step] at hs'
    split at hs'
    · next hends =>
      cases hs'
      exact h.loadEnds hends.1 hends.2 outcome
    · cases hs'

/-- A session starts with the invariant. -/
theorem invariant_create (markdown : Text) : (create markdown).Invariant := by
  have hnew : Invariant { markdown := markdown } := {
    attempting := ⟨Holder.owns_init, nofun, List.Sublist.refl _⟩
    changes := ⟨fun _ => rfl, nofun, nofun, nofun⟩
    editing := ⟨⟨nofun, nofun⟩, ⟨nofun, nofun⟩, rfl, nofun, nofun⟩
    revised := ⟨List.Pairwise.nil, nofun, nofun⟩
    counted := ⟨rfl, rfl, Nat.zero_le _⟩
    queued := fun hne => absurd rfl hne }
  exact hnew.start rfl rfl nofun nofun rfl

/-! ## Every run -/

/-- Nothing happened to the document: it was neither changed nor published, and no change was
    sent. -/
structure Untouched (s s' : FlarkSession) : Prop where
  status : s'.status = s.status
  markdown : s'.markdown = s.markdown
  revision : s'.revision = s.revision
  published : s'.published = s.published
  edits : s'.edits = s.edits
  sent : s'.sent = s.sent

theorem Untouched.refl (s : FlarkSession) : Untouched s s := ⟨rfl, rfl, rfl, rfl, rfl, rfl⟩

theorem Untouched.trans {s s' s'' : FlarkSession} (h : Untouched s s') (h' : Untouched s' s'') :
    Untouched s s'' :=
  ⟨h'.status.trans h.status, h'.markdown.trans h.markdown, h'.revision.trans h.revision,
    h'.published.trans h.published, h'.edits.trans h.edits, h'.sent.trans h.sent⟩

theorem untouched_withHolder {holder : Holder} (h : holder.status = s.status) :
    Untouched s { s with toHolder := holder } := ⟨h, rfl, rfl, rfl, rfl, rfl⟩

section

variable {x : FlarkSession} (h : Untouched s x)

include h

/-- What goes on after a notification touches nothing once disposed. -/
theorem Untouched.resume {after : After} : Untouched s (x.resume after) := by
  refine h.trans ?_
  cases after with
  | edited | loaded | starts a | closes => exact ⟨rfl, rfl, rfl, rfl, rfl, rfl⟩
  | refuses a | opens a | fails a => exact untouched_withHolder (Holder.complete_status a)

/-- Without changes that wait, nothing is sent. -/
theorem Untouched.sendNext (hpending : x.pendingChanges = []) {after : After} :
    Untouched s (x.sendNext after) := by
  rw [FlarkSession.sendNext]
  split
  · next change rest hsome _ =>
    rw [hpending] at hsome
    cases hsome
  · refine Untouched.resume ?_
    exact h.trans ⟨rfl, rfl, rfl, rfl, rfl, rfl⟩

theorem Untouched.attemptFails (hdisposed : x.status = .disposed) (hlease : x.lease = none) {a : Nat} :
    Untouched s (x.attemptFails a none) := by
  rw [attemptFails_none hlease, if_pos (Or.inl hdisposed)]
  exact h

end

section

variable (hdisposed : s.status = .disposed)

include hdisposed

theorem guard_of_disposed (expected : Option Nat) (allowLoading : Bool) :
    s.guard expected allowLoading = some .disposed := if_pos hdisposed

/-- A disposed session takes no edit. -/
theorem call_of_disposed (markdown : Text) (expected : Option Nat) :
    s.loadMarkdown markdown expected = s ∧ s.command expected = s ∧ s.edit expected = s := by
  rw [loadMarkdown, command, edit, guard_of_disposed hdisposed, guard_of_disposed hdisposed]
  exact ⟨rfl, rfl, rfl⟩

/-- No call touches a disposed session. -/
theorem untouched_call (c : Call) : Untouched s (s.call c) := by
  have hcalls := call_of_disposed hdisposed
  cases c with
  | retryLoading =>
    rw [call, retryLoading, if_neg (by simp [hdisposed])]
    exact Untouched.refl s
  | loadMarkdown markdown expected =>
    rw [call, (hcalls markdown expected).1]
    exact Untouched.refl s
  | command expected =>
    rw [call, (hcalls [] expected).2.1]
    exact Untouched.refl s
  | edit expected =>
    rw [call, (hcalls [] expected).2.2]
    exact Untouched.refl s
  | setCommandHandler set => exact ⟨rfl, rfl, rfl, rfl, rfl, rfl⟩
  | dispose =>
    rw [call, dispose, if_pos hdisposed]
    exact Untouched.refl s
  | engine expected =>
    rw [call, callEngine]
    split
    · exact Untouched.refl s
    · split
      · exact Untouched.refl s
      · exact ⟨rfl, rfl, rfl, rfl, rfl, rfl⟩

end

/-- Nothing happens to a session that is disposed. -/
theorem Invariant.untouched (h : s.Invariant) (hdisposed : s.status = .disposed) {e : Event}
    {s' : FlarkSession} (hs' : s.step e = some s') : Untouched s s' := by
  -- A disposed session has no changes that wait and no lease, so that whatever still runs finds
  -- nothing to do.
  have hpending := (h.changes.dropped hdisposed).1
  have hlease := h.attempting.owns.free (Or.inr hdisposed)
  cases e with
  | call c =>
    rw [FlarkSession.step] at hs'
    split at hs'
    · cases hs'
      exact untouched_call hdisposed c
    · cases hs'
  | returns =>
    rw [FlarkSession.step, FlarkSession.returns] at hs'
    split at hs'
    · cases hs'
    · next after rest hstack =>
      cases hs'
      rw [sendChanges]
      dsimp only
      split
      · refine Untouched.sendNext ?_ ?_
        · exact ⟨rfl, rfl, rfl, rfl, rfl, rfl⟩
        · exact hpending
      · refine Untouched.resume ?_
        exact ⟨rfl, rfl, rfl, rfl, rfl, rfl⟩
    · next after rest hstack =>
      cases hs'
      refine Untouched.sendNext ?_ ?_
      · exact ⟨rfl, rfl, rfl, rfl, rfl, rfl⟩
      · exact hpending
    all_goals
      cases hs'
      exact ⟨rfl, rfl, rfl, rfl, rfl, rfl⟩
  | loaderThrows =>
    rw [FlarkSession.step] at hs'
    split at hs'
    · next a rest hstack =>
      cases hs'
      refine Untouched.attemptFails ?_ ?_ ?_
      · exact ⟨rfl, rfl, rfl, rfl, rfl, rfl⟩
      · exact hdisposed
      · exact hlease
    · cases hs'
  | publishes source =>
    rw [FlarkSession.step, FlarkSession.publishes] at hs'
    split at hs'
    · next call rest engine hstack hengine =>
      obtain ⟨published, -, rfl⟩ := Option.map_eq_some_iff.1 hs'
      have hdeaf : ¬engine.listening = true := fun hl => by
        have := h.editing.listening.1 ⟨engine, hengine, hl⟩
        rw [hdisposed] at this
        cases this
      dsimp only
      rw [if_neg hdeaf, if_neg fun h => hdeaf h.1]
      exact ⟨rfl, rfl, rfl, rfl, rfl, rfl⟩
    · cases hs'
  | loadEnds a outcome =>
    rw [FlarkSession.step] at hs'
    split at hs'
    · cases hs'
      cases outcome with
      | fails =>
        refine Untouched.attemptFails ?_ ?_ ?_
        · exact ⟨rfl, rfl, rfl, rfl, rfl, rfl⟩
        · exact hdisposed
        · exact hlease
      | gives opens =>
        simp only [FlarkSession.loadEnds]
        rw [if_pos (Or.inl hdisposed)]
        exact ⟨Holder.release_status _ _, rfl, rfl, rfl, rfl, rfl⟩
    · cases hs'

/-- A call that expects another revision does nothing. -/
theorem call_of_stale (c : Call) {r : Nat} (hr : c.expected = some r) (hne : r ≠ s.revision) :
    s.call c = s := by
  have hguard : ∀ allowLoading, s.guard (some r) allowLoading ≠ none := by
    intro allowLoading hnone
    rw [guard] at hnone
    split at hnone
    · cases hnone
    · rw [if_pos (by simpa using hne)] at hnone
      cases hnone
  cases c with
  | loadMarkdown markdown expected =>
    obtain rfl : expected = some r := hr
    rw [call, loadMarkdown]
    split
    · next hnone _ => exact absurd hnone (hguard true)
    · rfl
  | command expected =>
    obtain rfl : expected = some r := hr
    rw [call, command]
    split
    · next hnone _ => exact absurd hnone (hguard false)
    · rfl
  | edit expected =>
    obtain rfl : expected = some r := hr
    rw [call, edit]
    split
    · rfl
    · next hnone => exact absurd hnone (hguard false)
  | retryLoading | setCommandHandler set | dispose | engine expected => cases hr

/-- What holds of a session at any time. -/
structure Kept (s : FlarkSession) : Prop where
  /-- Every lease given was disposed once, but for the one held by a session that is ready. -/
  leases : ∀ (l : Nat) (whys : List Release), s.leases[l]? = some whys →
    s.lease = some l ∧ s.status = .ready ∧ whys = [] ∨
      s.lease ≠ some l ∧ ∃ why ∈ [Release.disposed, .failed, .onArrival], whys = [why]
  futures : ∀ n ∈ s.attempts, n ≤ 1
  revisions : Rising s.published ∧ ∀ p ∈ s.published, p.state.revision ≤ s.revision
  /-- A call that expects a revision is taken at that revision only, and so is a command that
      the host's handler gives to the editor with the revision it was handed. -/
  expected : (∀ (c : Call) (r : Nat), c.expected = some r → r ≠ s.revision → s.call c = s) ∧
    ∀ r r' : Nat, .handling r r' ∈ s.stack → s.status = .ready → ∀ e, s.engine = some e →
      e.revision = r' → s.revision = r
  /-- The changes of all edits were sent, but for those that wait for the one under way. -/
  changes : s.status ≠ .disposed →
    s.sent ++ s.pendingChanges = s.edits ∧ (s.stack = [] → s.sent = s.edits)
  disposed : s.status = .disposed → s.lease = none ∧ s.sent <+: s.edits ∧
    (∀ markdown expected,
      s.loadMarkdown markdown expected = s ∧ s.command expected = s ∧ s.edit expected = s) ∧
    ∀ events s', Runs.run step s events = some s' → Untouched s s'

/-- What is promised of a session is read off its invariant. -/
theorem Invariant.kept (h : s.Invariant) : s.Kept where
  leases l whys hl := by
    rcases h.attempting.owns.released l whys hl with ⟨hheld, hnone⟩ | ⟨hfree, why, hwhy, hne⟩
    · exact Or.inl ⟨hheld, h.attempting.ready (by rw [hheld]; rfl), hnone⟩
    · refine Or.inr ⟨hfree, why, ?_, hwhy⟩
      cases why with
      | superseded => exact absurd rfl hne
      | disposed | failed | onArrival => simp
  futures := h.attempting.owns.once
  revisions := ⟨h.revised.order, h.revised.bound⟩
  expected := ⟨fun c r hr hne => call_of_stale c hr hne, fun r r' hmem hready e he heq => by
    obtain ⟨e', he', hl⟩ := h.editing.listening.2 hready
    rw [he] at he'
    cases he'
    have := h.revised.handled r r' hmem e he hl
    omega⟩
  changes hne := by
    refine ⟨h.changes.order hne, fun hidle => ?_⟩
    have hpending : s.pendingChanges = [] := by
      by_contra hpending
      obtain ⟨f, hf, -⟩ := h.queued hpending
      rw [hidle] at hf
      cases hf
    have horder := h.changes.order hne
    rwa [hpending, List.append_nil] at horder
  disposed hdisposed := by
    refine ⟨h.attempting.owns.free (Or.inr hdisposed), (h.changes.dropped hdisposed).2,
      call_of_disposed hdisposed, fun events s' hrun => ?_⟩
    have hboth := Runs.run_invariant (P := fun x => x.Invariant ∧ Untouched s x)
      (fun x e x' ⟨hx, hsame⟩ hstep =>
        ⟨hx.step hstep, hsame.trans (hx.untouched (hsame.status.trans hdisposed) hstep)⟩)
      hrun ⟨h, Untouched.refl s⟩
    exact hboth.2

/-- What holds of a session after any run. -/
theorem run_kept {markdown : Text} {events : List Event}
    (h : Runs.run step (create markdown) events = some s) : s.Kept := by
  have hinvariant := Runs.run_invariant (P := Invariant) (fun _ _ _ hs hstep => hs.step hstep) h
    (invariant_create markdown)
  exact hinvariant.kept

end FlarkSession

end Flark
