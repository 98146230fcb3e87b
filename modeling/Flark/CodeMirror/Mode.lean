import Flark.Text
import Mathlib.Data.Int.Order.Basic
import Mathlib.Order.Nat

/-!
# Modes

A language mode is a tokenizer that goes over one line at a time with a state (`mode.dart` and
`stream.dart` of the CodeMirror port). A mode can throw at any point, return without consuming, and
move its stream; `readToken` still gets on. A loop over a line returns when the mode keeps to the
line; for a mode that does not, it can run on, so it takes the number of turns it may make.

* `Mode`: what a mode does, over any type of state;
* `readToken_spec`: a token read is not empty and on the line;
* `splitLines_spec`: the lines of a text and where they start.
-/

namespace Flark

namespace CodeMirror

/-! ## Streams -/

/-- What a mode can move of a `StringStream`. -/
structure Cursor where
  pos : Int := 0
  start : Int := 0
  lastColumnPos : Int := 0
  lastColumnValue : Int := 0
  lineStart : Int := 0
  deriving DecidableEq, Inhabited

/-- `StringStream`: a line fed to a mode. -/
structure StringStream where
  string : Text
  tabSize : Int
  indentUnit : Int
  /-- `lookAhead`: the lines around it. -/
  lookAhead : Int → Option Text
  cursor : Cursor

namespace StringStream

variable (stream : StringStream)

def pos : Int := stream.cursor.pos
def start : Int := stream.cursor.start

/-- `eol`. -/
def eol : Bool := stream.string.length ≤ stream.pos

/-- The stream at a position. -/
def withPos (pos : Int) : StringStream :=
  { stream with cursor := { stream.cursor with pos := pos } }

/-- The stream where a token starts. -/
def withStart (start : Int) : StringStream :=
  { stream with cursor := { stream.cursor with start := start } }

end StringStream

/-! ## Modes -/

/-- `ModeConfig`. -/
structure ModeConfig where
  indentUnit : Int := 2
  tabSize : Int := 4

/-- `Mode`. A state is what the mode's objects hold; `none` is a mode that throws. -/
structure Mode (σ : Type*) where
  config : ModeConfig := {}
  startState : Option σ
  token : StringStream → σ → Option (Option Text × Cursor × σ)
  copyState : σ → Option σ
  blankLine : σ → Option σ := some
  hasIndent : Bool := false
  indent : σ → Text → Text → Option (Option Int) := fun _ _ _ => some none
  /-- Whether the pattern matches a text. -/
  electricInput : Option (Text → Bool) := none
  electricChars : Option Text := none

variable {σ : Type*} (mode : Mode σ)

/-- A place on the line of a stream. -/
def StringStream.OnLine (stream : StringStream) (pos : Int) : Prop :=
  0 ≤ pos ∧ pos ≤ stream.string.length

/-- A mode that leaves its stream on the line, and its start as it is. -/
def Mode.StaysOnLine : Prop :=
  ∀ stream state style cursor state', stream.OnLine stream.pos →
    mode.token stream state = some (style, cursor, state') →
    cursor.start = stream.start ∧ stream.OnLine cursor.pos

/-- The loop of `readToken`: the token that advances, or the style last given. -/
def readTurns : (turns : Nat) → (style : Option Text) → StringStream → σ →
    Option (Option Text × StringStream × σ)
  | 0, style, stream, state => some (style, stream, state)
  | turns + 1, _, stream, state =>
    match mode.token stream state with
    | none => none
    | some (style, cursor, state) =>
      let stream := { stream with cursor := cursor }
      if stream.start < stream.pos then some (style, stream, state)
      else readTurns turns style stream state

/-- Where a stream that did not advance steps to: over a character, a surrogate pair whole. A
    position before the text throws. -/
def stepOver (string : Text) (at_ : Int) : Option Int :=
  if at_ + 1 < string.length then
    if at_ < 0 then none
    else if string.codeUnitAt at_ &&& 0xFC00 = 0xD800 ∧
        string.codeUnitAt (at_ + 1) &&& 0xFC00 = 0xDC00 then some (at_ + 2)
    else some (at_ + 1)
  else some (at_ + 1)

/-- `readToken`: the style of the next token, which a mode may take ten turns for. -/
def readToken (stream : StringStream) (state : σ) : Option (Option Text × StringStream × σ) :=
  match readTurns mode 10 none (stream.withStart stream.pos) state with
  | none => none
  | some (style, stream, state) =>
    if stream.start < stream.pos then some (style, stream, state)
    else (stepOver stream.string stream.start).map fun pos => (style, stream.withPos pos, state)

/-- `streamFor`. -/
def streamFor (line : Text) (lookAhead : Int → Option Text) : StringStream where
  string := line
  tabSize := if mode.config.tabSize = 0 then 8 else mode.config.tabSize
  indentUnit := mode.config.indentUnit
  lookAhead := lookAhead
  cursor := {}

/-! ## Lines -/

/-- The line breaks of a text that begins at `at_`, as start and end: CRLF, CR and LF. -/
def lineBreaksFrom : (at_ : Nat) → Text → List (Nat × Nat)
  | _, [] => []
  | at_, [u] => if u = 0x0D ∨ u = 0x0A then [(at_, at_ + 1)] else []
  | at_, u :: v :: rest =>
    if u = 0x0D ∧ v = 0x0A then (at_, at_ + 2) :: lineBreaksFrom (at_ + 2) rest
    else if u = 0x0D ∨ u = 0x0A then (at_, at_ + 1) :: lineBreaksFrom (at_ + 1) (v :: rest)
    else lineBreaksFrom (at_ + 1) (v :: rest)

/-- The loop of `splitLines` over the line breaks. -/
def splitAt (text : Text) : (start : Nat) → List (Nat × Nat) → List (Text × Nat)
  | start, [] => [(text.drop start, start)]
  | start, (s, e) :: breaks => (text.substring start s, start) :: splitAt text e breaks

/-- `splitLines`: the lines of a text and the offset where each starts. -/
def splitLines (text : Text) : List (Text × Nat) := splitAt text 0 (lineBreaksFrom 0 text)

/-- `LineList.lookAhead`. -/
def lookAheadFrom (lines : List (Text × Nat)) (line n : Int) : Option Text :=
  if 0 ≤ line + n then lines[(line + n).toNat]?.map Prod.fst else none

/-! ## What a token read does -/

section

variable {mode}

theorem readTurns_spec (h : mode.StaysOnLine) {turns : Nat} {style style' : Option Text}
    {stream stream' : StringStream} {state state' : σ} (hpos : stream.OnLine stream.pos)
    (hr : readTurns mode turns style stream state = some (style', stream', state')) :
    stream'.string = stream.string ∧ stream'.start = stream.start ∧ stream.OnLine stream'.pos := by
  induction turns generalizing style stream state with
  | zero =>
    obtain ⟨-, rfl, -⟩ : _ ∧ _ ∧ _ := by simpa [readTurns] using hr
    exact ⟨rfl, rfl, hpos⟩
  | succ turns ih =>
    rw [readTurns] at hr
    split at hr
    · cases hr
    next token cursor state₁ htoken =>
    obtain ⟨hstart, hcursor⟩ := h _ _ _ _ _ hpos htoken
    dsimp only at hr
    split at hr
    · obtain ⟨-, rfl, -⟩ : _ ∧ _ ∧ _ := by simpa using hr
      exact ⟨rfl, hstart, hcursor⟩
    · obtain ⟨hstring, hstart', hpos'⟩ := @ih _ { stream with cursor := cursor } _ hcursor hr
      exact ⟨hstring, hstart'.trans hstart, hpos'⟩

/-- A token read on a line starts where the stream was, is not empty and stays on the line. -/
theorem readToken_spec (h : mode.StaysOnLine) {stream stream' : StringStream}
    (hpos : 0 ≤ stream.pos) (heol : stream.eol = false) {state state' : σ} {style : Option Text}
    (hr : readToken mode stream state = some (style, stream', state')) :
    stream'.string = stream.string ∧ stream'.start = stream.pos ∧ stream.pos < stream'.pos ∧
      stream'.pos ≤ stream.string.length := by
  have hlt : stream.pos < stream.string.length := by
    rw [StringStream.eol, decide_eq_false_iff_not] at heol
    omega
  rw [readToken] at hr
  split at hr
  · cases hr
  next style₁ stream₁ state₁ hturns =>
  obtain ⟨hstring, hstart, hpos'⟩ :=
    @readTurns_spec σ mode h _ _ _ (stream.withStart stream.pos) _ _ _ ⟨hpos, hlt.le⟩ hturns
  have hstring : stream₁.string = stream.string := hstring
  have hstart : stream₁.start = stream.pos := hstart
  split at hr
  · next hlt' =>
    obtain ⟨-, rfl, -⟩ : _ ∧ _ ∧ _ := by simpa using hr
    exact ⟨hstring, hstart, by omega, hpos'.2⟩
  · obtain ⟨pos, hstep, heq⟩ := Option.map_eq_some_iff.1 hr
    obtain ⟨-, rfl, -⟩ : _ ∧ _ ∧ _ := by simpa using heq
    have hbounds : stream.pos < pos ∧ pos ≤ stream.string.length := by
      rw [hstring, hstart, stepOver] at hstep
      split_ifs at hstep <;> (injection hstep; omega)
    exact ⟨hstring, hstart, hbounds⟩

end

/-! ## What a splitter gives -/

/-- Line breaks in order, from `start` on and up to `stop`. -/
def BreaksIn (stop : Nat) : (start : Nat) → List (Nat × Nat) → Prop
  | _, [] => True
  | start, (s, e) :: breaks => start ≤ s ∧ s < e ∧ e ≤ stop ∧ BreaksIn stop e breaks

theorem BreaksIn.mono {stop start start' : Nat} {breaks : List (Nat × Nat)}
    (h : BreaksIn stop start breaks) (hle : start' ≤ start) : BreaksIn stop start' breaks := by
  cases breaks with
  | nil => trivial
  | cons b breaks => exact ⟨hle.trans h.1, h.2⟩

theorem lineBreaksFrom_spec (at_ : Nat) (text : Text) :
    BreaksIn (at_ + text.length) at_ (lineBreaksFrom at_ text) := by
  induction at_, text using lineBreaksFrom.induct with
  | case1 => trivial
  | case2 at_ u hends =>
    rw [lineBreaksFrom, if_pos hends]
    exact ⟨le_rfl, Nat.lt_succ_self _, le_rfl, trivial⟩
  | case3 at_ u hends =>
    rw [lineBreaksFrom, if_neg hends]
    trivial
  | case4 at_ u v rest hends ih =>
    rw [lineBreaksFrom, if_pos hends]
    simp only [List.length_cons] at ih ⊢
    exact ⟨le_rfl, by omega, by omega, by rwa [show at_ + (rest.length + 1 + 1) =
      at_ + 2 + rest.length by omega]⟩
  | case5 at_ u v rest hnot hends ih =>
    rw [lineBreaksFrom, if_neg hnot, if_pos hends]
    rw [List.length_cons, List.length_cons, show at_ + (rest.length + 1 + 1) =
      at_ + 1 + (rest.length + 1) by omega]
    exact ⟨le_rfl, Nat.lt_succ_self _, by omega, ih⟩
  | case6 at_ u v rest hnot hnot' ih =>
    rw [lineBreaksFrom, if_neg hnot, if_neg hnot']
    rw [List.length_cons, List.length_cons, show at_ + (rest.length + 1 + 1) =
      at_ + 1 + (rest.length + 1) by omega]
    exact ih.mono (Nat.le_succ _)

/-- Lines of a text of `total` units, with their starts: the first one starts at `start`, a break
    is between two, and the last one ends with the text. -/
def LinesFrom (total : Nat) : (start : Nat) → List (Text × Nat) → Prop
  | _, [] => False
  | start, [(line, s)] => s = start ∧ s + line.length = total
  | start, (line, s) :: next :: lines =>
    s = start ∧ s + line.length < next.2 ∧ LinesFrom total next.2 (next :: lines)

theorem LinesFrom.start_le {total start : Nat} {lines : List (Text × Nat)}
    (h : LinesFrom total start lines) : start ≤ total := by
  induction lines generalizing start with
  | nil => exact h.elim
  | cons entry rest ih =>
    cases rest with
    | nil =>
      obtain ⟨rfl, htotal⟩ := h
      omega
    | cons next rest =>
      obtain ⟨rfl, hlt, hrest⟩ := h
      have := ih hrest
      omega

theorem splitAt_spec {text : Text} {start : Nat} {breaks : List (Nat × Nat)}
    (hstart : start ≤ text.length) (h : BreaksIn text.length start breaks) :
    LinesFrom text.length start (splitAt text start breaks) := by
  induction breaks generalizing start with
  | nil =>
    refine ⟨rfl, ?_⟩
    rw [List.length_drop]
    omega
  | cons b breaks ih =>
    obtain ⟨hs, hlt, he, hrest⟩ := h
    have hnext := ih he hrest
    have hlength : (text.substring start b.1).length = b.1 - start := by
      rw [Text.length_substring (by omega) (by omega)]
      omega
    rw [splitAt]
    cases breaks with
    | nil => exact ⟨rfl, by rw [hlength]; omega, hnext⟩
    | cons c breaks => exact ⟨rfl, by rw [hlength]; omega, hnext⟩

theorem splitLines_spec (text : Text) : LinesFrom text.length 0 (splitLines text) := by
  refine splitAt_spec (Nat.zero_le _) ?_
  have := lineBreaksFrom_spec 0 text
  rwa [Nat.zero_add] at this

end CodeMirror

end Flark
