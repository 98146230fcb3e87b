import Flark.Kernel.Composition
import Flark.Kernel.Continuation
import Flark.Kernel.SourceMode

/-!
# Editors

The state of an editor, and how an edit becomes its next state: the source is admitted, parsed and
projected, and where the check asked for holds of the document it is published with its history
step (`_attempt` of `kernel/editor.dart`).

The parser is a parameter: a function that may refuse a source.

* `projectSnapshot`: the snapshot of a source, live or of source mode;
* `Editor.attempt`: an attempt to commit a source; `Editor.commit`, whether it did;
* `Editor.Live`: a live editor;
* `Editor.Live.commit_checked`: where an edit with a check takes one.
-/

namespace Flark

/-! ## Limits -/

/-- `FlarkLiveLimits`. -/
structure LiveLimits where
  lines : Nat := 2048
  lineCodeUnits : Nat := 4096
  blocks : Nat := 2048
  runs : Nat := 8192
  blockCodeUnits : Nat := 16384
  /-- Maximum combined quote and list-item nesting. -/
  containerDepth : Nat := 8
  deriving DecidableEq, Repr

/-- `BlockView.isLeaf`. -/
def RenderModel.isLeafBlock (m : RenderModel) (b : Nat) : Bool :=
  RenderModel.isLeaf (m.blockKind b) || m.blockKind b == BlockKind.thematicBreak

namespace LiveLimits

variable (limits : LiveLimits)

/-- The loop of `_admitsModel`, from the depths of the blocks before. The host's list starts with
    a depth of zero for every block. -/
def admitsBlocks (m : RenderModel) : (blocks depths : List Nat) → Bool
  | [], _ => true
  | b :: blocks, depths =>
    let parentDepth := if m.blockParent b = noParent then 0 else depths.getD (m.blockParent b) 0
    let kind := m.blockKind b
    let depth := parentDepth + if kind = BlockKind.blockQuote ∨ kind = BlockKind.item then 1 else 0
    if limits.containerDepth < depth then false
    else if m.isLeafBlock b && decide (limits.blockCodeUnits < m.blockEnd b - m.blockStart b) then
      false
    else admitsBlocks m blocks (depths ++ [depth])

/-- `_admitsModel`. -/
def admitsModel (m : RenderModel) : Bool :=
  if limits.blocks < m.blockCount ∨ limits.runs < m.runCount then false
  else limits.admitsBlocks m (List.range m.blockCount) []

/-- `_admitsLive`. -/
def admitsLive (stats : SourceStats) (syncLimit : Nat) : Bool :=
  decide (stats.utf8Bytes ≤ syncLimit) && decide (stats.lines ≤ limits.lines) &&
    decide (stats.widestLine ≤ limits.lineCodeUnits)

end LiveLimits

/-- What a parser throws. -/
inductive ParseFailure
  | extractionDeviation
  | other
  deriving DecidableEq, Repr

/-- What an editor is made with. -/
structure EditorSetup where
  parse : Text → Except ParseFailure RenderModel
  options : ProjectionOptions := {}
  liveLimits : LiveLimits := {}
  syncLimit : Nat := 16 * 1024
  sourceLimit : Nat := defaultSourceLimit
  caps : HistoryCaps

/-! ## Snapshots -/

/-- `FlarkEditorSnapshot`. -/
inductive EditorSnapshot (gs : Graphemes)
  | live (document : Document)
  | source (snapshot : SourceSnapshot gs)
  deriving DecidableEq

namespace EditorSnapshot

variable {gs : Graphemes}

def text : EditorSnapshot gs → Text
  | .live d => d.source
  | .source s => s.source

def selection : EditorSnapshot gs → Selection
  | .live d => d.selection
  | .source s => s.selection

/-- `_liveDocument`. -/
def document? : EditorSnapshot gs → Option Document
  | .live d => some d
  | .source _ => none

end EditorSnapshot

section

variable (gs : Graphemes) (setup : EditorSetup)

/-- `_projectSnapshot`. -/
def projectSnapshot (text : Text) (selected : Selection) (forceSourceMode rejectDeviation : Bool)
    (parsed : Option RenderModel) (live : Option Bool) (previous : Option Document) :
    Except ParseFailure (EditorSnapshot gs) :=
  if forceSourceMode ||
      !live.getD (setup.liveLimits.admitsLive (SourceStats.of text) setup.syncLimit) then
    .ok (.source (.of gs text selected))
  else
    match parsed.elim (setup.parse text) .ok with
    | .ok model =>
      if !setup.liveLimits.admitsModel model then .ok (.source (.of gs text selected))
      else .ok (.live (Document.project gs text model selected setup.options previous))
    | .error failure =>
      if failure = .extractionDeviation ∧ rejectDeviation = false then
        .ok (.source (.of gs text selected))
      else .error failure

/-! ## Typed fences -/

/-- What completes a typed fence. -/
structure CompletedFence where
  source : Text
  caret : Int
  at_ : Int
  deriving DecidableEq

/-- The block is a bare opener of three characters, the caret behind one of them. -/
def opensTypedFence (m : RenderModel) (caret : Int) (b : Nat) : Bool :=
  m.blockKind b == BlockKind.codeBlock && m.blockFlags b &&& BlockFlag.fenced != 0 &&
    m.blockAttr b == 3 && m.blockFirstLine b == m.lineOfUtf16 caret.toNat &&
    decide ((m.blockStart b : Int) < caret) &&
    decide (caret ≤ (m.blockStart b + m.blockAttr b : Nat)) &&
    m.codeInfoStart b == m.codeInfoEnd b

/-- `_completeTypedFence`. -/
def completeTypedFence (candidate : Text) (caret : Int) (m : RenderModel) : Option CompletedFence :=
  ((List.range m.blockCount).find? (opensTypedFence m caret)).map fun b =>
    let line := m.lineOfUtf16 caret.toNat
    let lead := continuationPrefix candidate m line (m.blockStart b) b
    let fence := candidate.substring (m.blockStart b) (m.blockStart b + m.blockAttr b : Nat)
    let openerEnd := m.codeInfoStart b
    let newline : Text :=
      if candidate.startsWith [0x0D, 0x0A] openerEnd then [0x0D, 0x0A] else [0x0A]
    let inserted := newline ++ lead ++ newline ++ lead ++ fence ++ newline ++ lead ++
      if openerEnd = candidate.length then newline else []
    { source := candidate.replaceRange openerEnd openerEnd inserted
      caret := openerEnd + newline.length + lead.length
      at_ := openerEnd }

end

/-! ## Editors -/

/-- `FlarkEditor`: its editing state, whether source mode is forced, and the outcome of the call. -/
structure Editor (gs : Graphemes) where
  snapshot : EditorSnapshot gs
  pending : Option PendingStyle := none
  goalColumn : Option Int := none
  selectedCodeScope : Bool := false
  composition : Option HistoryEntry := none
  cellOrigin : Option (EditorSnapshot gs) := none
  history : History := .empty
  forceSourceMode : Bool := false
  revision : Nat := 0
  lastRejection : Option FlarkRejection := none
  inert : Bool := false
  now : Int := 0
  deriving DecidableEq

/-- `_Outcome`. -/
inductive Outcome
  | committed
  | unchanged
  | notKept (passedOver : Bool) (read : Option Document)
  | refused (reason : FlarkRejection)
  deriving DecidableEq

/-- What `_attempt` is asked. -/
structure Attempt where
  source : Text
  selection : Selection
  coalesce : Bool
  completeTypedFence : Bool := false
  pending : Option PendingStyle := none
  accept : Option (Document → Bool) := none
  acceptCompleted : Option (Document → Int → Int → Bool) := none
  acceptSourceMode : Bool := false

/-- The attempt that completes a typed fence. -/
def Attempt.completed (a : Attempt) (c : CompletedFence) : Attempt where
  source := c.source
  selection := .collapsed c.caret
  coalesce := false
  accept := a.acceptCompleted.map fun accept next =>
    accept next c.at_ (c.source.length - a.source.length)
  acceptSourceMode := a.acceptSourceMode

namespace Editor

variable {gs : Graphemes} (setup : EditorSetup) (ed : Editor gs)

def source : Text := ed.snapshot.text

def selection : Selection := ed.snapshot.selection

def composing : Bool := ed.composition.isSome

def sourceMode : Bool := ed.snapshot.document?.isNone

/-- `_select`, in a live document. -/
def select (d : Document) (s : Selection) : Editor gs × Bool :=
  let next := d.withSelection gs s
  if next.selection = d.selection then (ed, false)
  else
    ({ ed with
        snapshot := .live next
        pending := none
        goalColumn := none
        history := ed.history.breakCoalescing }, true)

/-- `_selectSource`. -/
def selectSource (snapshot : SourceSnapshot gs) (s : Selection) : Editor gs × Bool :=
  let next := snapshot.withSelection s
  if next.selection = snapshot.selection then (ed, false)
  else
    ({ ed with
        snapshot := .source next
        pending := none
        goalColumn := none
        history := ed.history.breakCoalescing }, true)

/-- `_admits`: why a source is refused, or whether it is rendered live. -/
def admits (text : Text) : Except FlarkRejection Bool :=
  let stats := SourceStats.of text
  if !stats.valid then .error .invalidSource
  else if setup.sourceLimit < stats.utf8Bytes then .error .sourceLimit
  else .ok (setup.liveLimits.admitsLive stats setup.syncLimit)

/-- The move of a selection as the outcome of an edit. -/
def moved (r : Editor gs × Bool) : Outcome × Editor gs :=
  (if r.2 then .committed else .unchanged, { r.1 with inert := !r.2 })

/-- An edit that leaves the source as it is: its check holds of the document as it is. -/
def reselect (a : Attempt) : Outcome × Editor gs :=
  match ed.snapshot with
  | .source s =>
    if a.accept.isSome && !a.acceptSourceMode then (.notKept true none, ed)
    else moved (ed.selectSource s a.selection)
  | .live d =>
    if a.accept.any fun accept => !accept (d.withSelection gs a.selection) then
      (.notKept false (some (d.withSelection gs a.selection)), ed)
    else moved (ed.select d a.selection)

/-- The recording of a commit; an unwritten cell is recorded as it was. -/
def recorded (coalesce : Bool) : History :=
  if ed.composing then ed.history
  else
    let before := ed.cellOrigin.getD ed.snapshot
    ed.history.recordState setup.caps
      ⟨⟨before.text, before.selection, ed.pending⟩, coalesce, ed.now⟩

/-- The state that a commit publishes. -/
def published (a : Attempt) (next : EditorSnapshot gs) : Editor gs :=
  { ed with
    snapshot := next
    pending := if next.document?.isSome then a.pending else none
    goalColumn := none
    history := ed.recorded setup a.coalesce }

/-- The end of `_attempt`: project, check and publish. -/
def publish (a : Attempt) (parsed : Option RenderModel) (live : Bool) :
    Except ParseFailure (Outcome × Editor gs) :=
  match projectSnapshot gs setup a.source a.selection ed.forceSourceMode (!ed.sourceMode) parsed
      (some live) ed.snapshot.document? with
  | .error .extractionDeviation =>
    .ok (.refused .extractionDeviation, { ed with lastRejection := some .extractionDeviation })
  | .error failure => .error failure
  | .ok (.live d) =>
    if a.accept.any fun accept => !accept d then .ok (.notKept false (some d), ed)
    else .ok (.committed, ed.published setup a (.live d))
  | .ok (.source s) =>
    if a.accept.isSome && !a.acceptSourceMode then .ok (.notKept true none, ed)
    else .ok (.committed, ed.published setup a (.source s))

/-- The start of `_attempt`: an edit that changes no source, and one that is not admitted. -/
def admitting (a : Attempt) (admitted : Bool → Except ParseFailure (Outcome × Editor gs)) :
    Except ParseFailure (Outcome × Editor gs) :=
  if a.source = ed.source ∧ ed.cellOrigin = none then .ok (ed.reselect a)
  else
    match admits setup a.source with
    | .error reason => .ok (.refused reason, { ed with lastRejection := some reason })
    | .ok live => admitted live

/-- `_attempt`. -/
def attempt (a : Attempt) : Except ParseFailure (Outcome × Editor gs) :=
  ed.admitting setup a fun live =>
    if a.completeTypedFence && live then
      match setup.parse a.source with
      | .error .extractionDeviation =>
        .ok (.refused .extractionDeviation, { ed with lastRejection := some .extractionDeviation })
      | .error failure => .error failure
      | .ok model =>
        match completeTypedFence a.source a.selection.extent model with
        | some c =>
          ed.admitting setup (a.completed c) fun live =>
            ed.publish setup (a.completed c) none live
        | none => ed.publish setup a (some model) live
    else ed.publish setup a none live

/-- `_commit`. -/
def commit (a : Attempt) : Except ParseFailure (Bool × Editor gs) :=
  (ed.attempt setup a).map fun r => (r.1 == .committed, r.2)

/-! ## Live editors -/

/-- A live editor between two calls, with no composition open. -/
structure Live (d : Document) : Prop where
  snapshot : ed.snapshot = .live d
  live : d.Live gs
  composition : ed.composition = none
  cellOrigin : ed.cellOrigin = none

variable {setup ed}

/-- The snapshot of a live projection is the document of what the parser reads. -/
theorem projectSnapshot_live {text : Text} {selected : Selection} {forced deviation : Bool}
    {parsed : Option RenderModel} {live : Option Bool} {previous : Option Document} {d : Document}
    (h : projectSnapshot gs setup text selected forced deviation parsed live previous =
      .ok (.live d)) :
    ∃ m, parsed.elim (setup.parse text) .ok = .ok m ∧
      d = Document.project gs text m selected setup.options previous := by
  rw [projectSnapshot] at h
  split at h
  · cases h
  · split at h
    · next m hm =>
      split at h
      · cases h
      · cases h
        exact ⟨m, hm, rfl⟩
    · split at h
      · cases h
      · cases h

/-- What an attempt publishes: a document that its check holds of, or a source unchecked where that
    is allowed. -/
theorem publish_committed {a : Attempt} {parsed : Option RenderModel} {live : Bool}
    {ed' : Editor gs} (h : ed.publish setup a parsed live = .ok (.committed, ed')) :
    ∃ next, projectSnapshot gs setup a.source a.selection ed.forceSourceMode (!ed.sourceMode)
        parsed (some live) ed.snapshot.document? = .ok next ∧ ed' = ed.published setup a next ∧
      match next with
      | .live d => ∀ accept ∈ a.accept, accept d = true
      | .source _ => a.accept = none ∨ a.acceptSourceMode = true := by
  rw [publish] at h
  split at h
  · cases h
  · cases h
  · next d hd =>
    split at h
    · cases h
    · next hkeep =>
      cases h
      refine ⟨_, hd, rfl, fun accept haccept => ?_⟩
      rw [Option.mem_def.1 haccept] at hkeep
      simpa using hkeep
  · next s hs =>
    split at h
    · cases h
    · next hkeep =>
      cases h
      refine ⟨_, hs, rfl, ?_⟩
      cases haccept : a.accept with
      | none => exact Or.inl rfl
      | some accept =>
        rw [haccept] at hkeep
        exact Or.inr (by simpa using hkeep)

/-- The document that a new source and selection make, if a parser reads the source: an edit that
    leaves the source as it is moves the selection. -/
def Lands (gs : Graphemes) (setup : EditorSetup) (d : Document) (text : Text) (s : Selection)
    (d' : Document) : Prop :=
  (text = d.source ∧ d' = d.withSelection gs s) ∨
    (text ≠ d.source ∧ ∃ m, setup.parse text = .ok m ∧
      d' = Document.project gs text m s setup.options (some d))

theorem Lands.unique {d d₁ d₂ : Document} {text : Text} {s : Selection}
    (h₁ : Lands gs setup d text s d₁) (h₂ : Lands gs setup d text s d₂) : d₁ = d₂ := by
  rcases h₁ with ⟨heq, rfl⟩ | ⟨hne, m, hm, rfl⟩
  · rcases h₂ with ⟨-, rfl⟩ | ⟨hne, -⟩
    · rfl
    · exact absurd heq hne
  · rcases h₂ with ⟨heq, -⟩ | ⟨-, m', hm', rfl⟩
    · exact absurd heq hne
    · rw [hm] at hm'
      rw [Except.ok.inj hm']

/-- An edit that leaves the source as it is moves the selection, where its check holds of the
    document with the selection moved. -/
theorem reselect_committed {d : Document} {a : Attempt} {ed' : Editor gs}
    (hd : ed.snapshot = .live d) (h : ed.reselect a = (.committed, ed')) :
    (∀ accept ∈ a.accept, accept (d.withSelection gs a.selection) = true) ∧
      (ed.select d a.selection).2 = true ∧
        ed' = { (ed.select d a.selection).1 with inert := false } := by
  rw [reselect, hd] at h
  dsimp only at h
  split at h
  · cases h
  · next hkeep =>
    rw [moved] at h
    obtain ⟨houtcome, hed⟩ := Prod.mk.inj h
    cases hmoved : (ed.select d a.selection).2 with
    | false =>
      rw [hmoved] at houtcome
      cases houtcome
    | true =>
      rw [hmoved] at hed
      refine ⟨fun accept haccept => ?_, rfl, hed.symm⟩
      rw [Option.mem_def.1 haccept] at hkeep
      simpa using hkeep

/-- What a move of the selection makes of a live editor. -/
theorem Live.select_moved {d : Document} {s : Selection} (hl : ed.Live d)
    (h : (ed.select d s).2 = true) :
    (ed.select d s).1.Live (d.withSelection gs s) ∧ (ed.select d s).1.pending = none ∧
      (ed.select d s).1.selectedCodeScope = ed.selectedCodeScope := by
  rw [select] at h ⊢
  split at h
  · cases h
  · next hne =>
    rw [if_neg hne]
    exact ⟨⟨rfl, ⟨hl.live.built, hl.live.conforms⟩, hl.composition, hl.cellOrigin⟩, rfl, rfl⟩

/-- What a check publishes of a live editor. -/
theorem Live.publish_checked {d : Document} {a : Attempt} {accept : Document → Bool} {live : Bool}
    {ed' : Editor gs} (hl : ed.Live d)
    (hparse : ∀ text m, setup.parse text = .ok m → m.SchemaConforms text)
    (haccept : a.accept = some accept) (hsource : a.acceptSourceMode = false)
    (h : ed.publish setup a none live = .ok (.committed, ed')) :
    ∃ m, setup.parse a.source = .ok m ∧
      ed'.Live (Document.project gs a.source m a.selection setup.options (some d)) ∧
      accept (Document.project gs a.source m a.selection setup.options (some d)) = true ∧
      ed'.pending = a.pending ∧ ed'.selectedCodeScope = ed.selectedCodeScope := by
  obtain ⟨next, hnext, rfl, hcheck⟩ := publish_committed h
  cases next with
  | source s =>
    dsimp only at hcheck
    rw [haccept, hsource] at hcheck
    rcases hcheck with hnone | hfalse
    · cases hnone
    · cases hfalse
  | live d' =>
    obtain ⟨m, hm, rfl⟩ := projectSnapshot_live hnext
    rw [hl.snapshot] at hcheck ⊢
    refine ⟨m, hm, ⟨rfl, ⟨Built.reusing (hparse _ _ hm).toConforms _ hl.live.built, hparse _ _ hm⟩,
      hl.composition, hl.cellOrigin⟩, hcheck accept haccept, rfl, rfl⟩

/-- An edit with a check takes a live editor to a document that the check holds of. -/
theorem Live.commit_checked {d : Document} {a : Attempt} {accept : Document → Bool}
    {ed' : Editor gs} (hl : ed.Live d)
    (hparse : ∀ text m, setup.parse text = .ok m → m.SchemaConforms text)
    (haccept : a.accept = some accept) (hfence : a.completeTypedFence = false)
    (hsource : a.acceptSourceMode = false) (hpending : a.pending = none)
    (h : ed.commit setup a = .ok (true, ed')) :
    ∃ d', Lands gs setup d a.source a.selection d' ∧ accept d' = true ∧ ed'.Live d' ∧
      ed'.pending = none ∧ ed'.selectedCodeScope = ed.selectedCodeScope := by
  have hattempt : ed.attempt setup a = .ok (.committed, ed') := by
    rw [commit] at h
    cases hattempt : ed.attempt setup a with
    | error failure =>
      rw [hattempt] at h
      cases h
    | ok r =>
      rw [hattempt] at h
      obtain ⟨houtcome, hed⟩ := Prod.mk.inj (Except.ok.inj h)
      rw [← hed, ← eq_of_beq houtcome]
  have htext : ed.source = d.source := by
    rw [source, hl.snapshot]
    rfl
  rw [attempt, admitting] at hattempt
  split at hattempt
  · next hsame =>
    obtain ⟨hread, hmoved, rfl⟩ := reselect_committed hl.snapshot (Except.ok.inj hattempt)
    obtain ⟨hlive, hnone, hscope⟩ := hl.select_moved hmoved
    exact ⟨_, Or.inl ⟨hsame.1.trans htext, rfl⟩, hread accept haccept,
      ⟨hlive.snapshot, hlive.live, hlive.composition, hlive.cellOrigin⟩, hnone, hscope⟩
  · next hchanged =>
    split at hattempt
    · cases hattempt
    · rw [hfence, Bool.false_and, if_neg Bool.false_ne_true] at hattempt
      obtain ⟨m, hm, hlive, hkeeps, hnone, hscope⟩ :=
        hl.publish_checked hparse haccept hsource hattempt
      exact ⟨_, Or.inr ⟨fun heq => hchanged ⟨heq.trans htext.symm, hl.cellOrigin⟩, m, hm, rfl⟩,
        hkeeps, hlive, hnone.trans hpending, hscope⟩

end Editor

end Flark
