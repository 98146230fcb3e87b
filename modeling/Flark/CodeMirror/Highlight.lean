import Mathlib
import Flark.CodeMirror.Mode
import Flark.Lib.Tiling

/-!
# Highlighting

The tokens of a snippet under a language mode (`highlight.dart`). The styles that a mode gives are
read line by line; tokens are in the whole snippet, and neighbours of one kind are one token. A run
is pending until its kind changes, and a mode that throws ends the reading.

* `codeMirrorKind`: the kind for a style;
* `codeMirrorTokens`: the tokens of a snippet;
* `Pending.Settled`: what is read so far lies end to end, no two neighbours of a kind;
* `codeMirrorTokens_spec`: the tokens tile the snippet, whatever the mode does on its lines.
-/

namespace Flark

namespace CodeMirror

/-! ## Kinds -/

/-- `_kinds`. -/
def kinds : List (Text × Text) :=
  [("keyword", "keyword"), ("operator", "operator"), ("atom", "constant"), ("bool", "constant"),
    ("null", "constant"), ("number", "number"), ("string", "string"), ("string-2", "string"),
    ("string.special", "string"), ("character", "string"), ("link", "string"),
    ("comment", "comment"), ("quote", "comment"), ("meta", "meta"), ("macroName", "meta"),
    ("header", "keyword"), ("heading", "keyword"), ("type", "type"), ("typeName", "type"),
    ("variable-3", "type"), ("className", "type"), ("namespace", "type"),
    ("variableName.function", "function"), ("tag", "tag"), ("tagName", "tag"),
    ("attribute", "attribute"), ("attributeName", "attribute"), ("qualifier", "selector-class"),
    ("self", "variable"), ("labelName", "variable")].map fun (style, kind) =>
    (Text.ofString style, Text.ofString kind)

/-- `_names`. -/
def names : List Text :=
  ["def", "variable", "variable-2", "variableName", "variableName.special",
    "variableName.definition", "property", "propertyName", "builtin"].map Text.ofString

/-- A capital ASCII letter. -/
def isCapital (u : UInt16) : Bool := 0x41 ≤ u && u ≤ 0x5A

/-- `_constantName`. -/
def constantName (name : Text) : Bool :=
  match name.dropWhile (· == 0x5F) with
  | [] => false
  | u :: rest =>
    isCapital u && !rest.isEmpty &&
      rest.all fun u => isCapital u || (0x30 ≤ u && u ≤ 0x39) || u == 0x5F

/-- `_capitalized`. -/
def capitalized (name : Text) : Bool := name.head?.any isCapital

/-- The pass of `_TypeArguments.of` over a line, at unit `i` with the `<` of `open_` open, the last
    one first: where the type arguments opened so far end. -/
def typeArgumentEnds : (i : Nat) → Text → (open_ : List Nat) → (ends : List (Nat × Int)) →
    List (Nat × Int)
  | _, [], open_, ends => open_.map (·, -1) ++ ends
  | i, u :: rest, open_, ends =>
    if u = 0x3C then typeArgumentEnds (i + 1) rest (i :: open_) ends
    else if u = 0x3E then
      match open_ with
      | [] => typeArgumentEnds (i + 1) rest [] ends
      | at_ :: open_ => typeArgumentEnds (i + 1) rest open_ ((at_, (i + 1 : Nat)) :: ends)
    -- Every `<` still open meets this stop before its `>`.
    else if u = 0x28 ∨ u = 0x3B ∨ u = 0x7B then
      typeArgumentEnds (i + 1) rest [] (open_.map (·, -1) ++ ends)
    else typeArgumentEnds (i + 1) rest open_ ends

/-- `_TypeArguments.of(line).after`: throws where no `<` is. -/
def typeArgumentsAfter (line : Text) (open_ : Nat) : Option Int :=
  (typeArgumentEnds 0 line [] []).lookup open_

/-- The loop of `_calls` over blanks, where `n` units are left. -/
def pastBlanks (line : Text) : (n i : Nat) → Nat
  | 0, i => i
  | n + 1, i =>
    if line.codeUnitAt i = 0x20 ∨ line.codeUnitAt i = 0x09 then pastBlanks line n (i + 1) else i

/-- `_calls`: whether the rest of a line starts with a call's parenthesis, past blanks and type
    arguments. -/
def calls (line : Text) (stop : Nat) : Option Bool :=
  let i := pastBlanks line (line.length - stop) stop
  let opens : Int → Bool := fun i => i < line.length && line.codeUnitAt i == 0x28
  if i < line.length ∧ line.codeUnitAt i = 0x3C then
    (typeArgumentsAfter line i).map fun after => if after < 0 then false else opens after
  else some (opens i)

/-- `codeMirrorKind` of a style of one name; the outer `none` where it throws. -/
def kindOfName (style line : Text) (start stop : Int) : Option (Option Text) :=
  match kinds.lookup style with
  | some kind => some (some kind)
  | none =>
    if !names.contains style then some none
    else if ¬(0 ≤ start ∧ start ≤ stop ∧ stop ≤ line.length) then none
    else
      let name := line.substring start stop
      let property := style == Text.ofString "property" || style == Text.ofString "propertyName"
      (calls line stop.toNat).map fun calls => some (Text.ofString
        (if style = Text.ofString "builtin" then if calls then "function" else "type"
        else if constantName name && !property then "constant"
        else if calls then "function"
        else if property then "property"
        else if capitalized name then "constructor"
        else "variable"))

/-- The loop of `codeMirrorKind` over the names of a style. -/
def firstKind (line : Text) (start stop : Int) : List Text → Option (Option Text)
  | [] => some none
  | part :: parts =>
    match (if part = Text.ofString "error" ∨ part = Text.ofString "invalid" then some none
      else kindOfName part line start stop) with
    | none => none
    | some none => firstKind line start stop parts
    | some (some kind) => some (some kind)

/-- `codeMirrorKind`: the kind for what a mode styled. -/
def codeMirrorKind (style line : Text) (start stop : Int) : Option (Option Text) :=
  if style.contains 0x20 then firstKind line start stop (style.splitOn 0x20)
  else kindOfName style line start stop

/-! ## Tokens -/

/-- `CodeToken`. -/
structure CodeToken where
  start : Int
  stop : Int
  kind : Option Text
  deriving DecidableEq, Repr

/-- What `codeMirrorTokens` holds while it reads: the tokens, the pending run, and the end of the
    last token read. -/
structure Pending where
  tokens : List CodeToken := []
  start : Int := 0
  kind : Option Text := none
  read : Int := 0

/-- `add`: a run of another kind begins. -/
def Pending.add (p : Pending) (at_ : Int) (next : Option Text) : Pending :=
  if next = p.kind then p
  else if p.start < at_ then
    { p with tokens := p.tokens ++ [⟨p.start, at_, p.kind⟩], start := at_, kind := next }
  else { p with kind := next }

/-- The line break before a line is unstyled; the line before it, if there is one, ends at
    `ended`. -/
def Pending.addBreak (p : Pending) (ended : Option Nat) : Pending :=
  match ended with
  | none => p
  | some e => p.add e none

section

variable {σ : Type*} (mode : Mode σ)

/-- The kind of a token read. -/
def kindOf (style : Option Text) (line : Text) (start stop : Int) : Option (Option Text) :=
  match style with
  | none => some none
  | some style => codeMirrorKind style line start stop

/-- The loop over the tokens of a line, for a number of turns; where the mode throws, there is no
    state to go on with. -/
def readLine (line : Text) (offset : Int) : (turns : Nat) → StringStream → σ → Pending →
    Option (Pending × Option σ)
  | 0, _, _, _ => none
  | turns + 1, stream, state, p =>
    if stream.eol then some (p, some state)
    else
      match readToken mode stream state with
      | none => some (p, none)
      | some (style, stream, state) =>
        match kindOf style line stream.start stream.pos with
        | none => some (p, none)
        | some kind =>
          readLine line offset turns stream state
            { p.add (offset + stream.start) kind with read := offset + stream.pos }

/-- The loop over the lines, from line `i` on; the line before it ended at `ended`. A mode that
    throws leaves a plain rest behind the last token read. -/
def readLines (turns : Nat) (lines : List (Text × Nat)) : (i : Nat) → (ended : Option Nat) →
    List (Text × Nat) → σ → Pending → Option Pending
  | _, _, [], _, p => some p
  | i, ended, (line, offset) :: rest, state, p =>
    let p := { p.addBreak ended with read := offset }
    match (if line = [] then mode.blankLine state else some state) with
    | none => some (p.add p.read none)
    | some state =>
      let stream := streamFor mode line (lookAheadFrom lines i)
      match readLine mode line offset turns stream state p with
      | none => none
      | some (p, none) => some (p.add p.read none)
      | some (p, some state) =>
        readLines turns lines (i + 1) (some (offset + line.length)) rest state p

/-- `codeMirrorTokens`, with a number of turns for each line; `none` where they do not do. -/
def codeMirrorTokens (turns : Nat) (source : Text) : Option (List CodeToken) :=
  let pending : Option Pending :=
    match mode.startState with
    | none => some (({} : Pending).add 0 none)
    | some state =>
      let lines := splitLines source
      readLines mode turns lines 0 none lines state {}
  pending.map fun p =>
    if p.start < (source.length : Int) ∨ p.tokens = [] then
      p.tokens ++ [⟨p.start, source.length, p.kind⟩]
    else p.tokens

end

/-! ## The tokens tile the source -/

/-- What is read so far lies end to end from the start of the source to the pending run, no two
    neighbours of a kind; no run began behind `q`, where the last one did. -/
structure Pending.Settled (p : Pending) (q : Int) : Prop where
  tiles : Tiling.Tiles CodeToken.start CodeToken.stop 0 p.tokens p.start
  differs : p.tokens.IsChain fun s t => s.kind ≠ t.kind
  last : ∀ t ∈ p.tokens.getLast?, t.kind ≠ p.kind
  before : p.start ≤ q ∨ p.tokens = []

namespace Pending

variable {p : Pending} {q at_ : Int}

theorem Settled.start_nonneg (h : p.Settled q) : 0 ≤ p.start := h.tiles.le

theorem Settled.start_eq (h : p.Settled q) (hnil : p.tokens = []) : p.start = 0 := by
  have := h.tiles
  rw [hnil] at this
  exact this.symm

theorem Settled.withRead (h : p.Settled q) (read : Int) :
    ({ p with read := read } : Pending).Settled q :=
  ⟨h.tiles, h.differs, h.last, h.before⟩

/-- A run that begins behind the one before it. -/
theorem Settled.add (h : p.Settled q) (hat : q < at_) (hzero : 0 ≤ at_) (next : Option Text) :
    (p.add at_ next).Settled at_ := by
  have hle : p.start ≤ at_ := by
    rcases h.before with hle | hnil
    · exact hle.trans hat.le
    · exact (h.start_eq hnil).trans_le hzero
  rw [Pending.add]
  split_ifs with hkind hlt
  · exact ⟨h.tiles, h.differs, h.last, Or.inl hle⟩
  · refine ⟨Tiling.Tiles.concat (x := (⟨p.start, at_, p.kind⟩ : CodeToken)) h.tiles hlt, ?_, ?_,
      Or.inl le_rfl⟩
    · exact List.isChain_append.2 ⟨h.differs, List.isChain_singleton _, fun t ht u hu => by
        rw [List.head?_cons, Option.mem_some_iff] at hu
        exact hu ▸ h.last t ht⟩
    · intro t ht
      rw [List.getLast?_concat, Option.mem_some_iff] at ht
      exact ht ▸ Ne.symm hkind
  · -- Only the first run begins where the one before it does, at the start of the source.
    have hnil : p.tokens = [] := h.before.resolve_left fun hle => hlt (hle.trans_lt hat)
    refine ⟨h.tiles, h.differs, fun t ht => ?_, Or.inr hnil⟩
    rw [hnil] at ht
    cases ht

end Pending

section

variable {σ : Type*} {mode : Mode σ} (hmode : mode.StaysOnLine)

include hmode

/-- The loop over a line returns, and settles what it read; whether the mode threw or not, the last
    run began before what was read ends. -/
theorem readLine_spec {line : Text} {offset q : Int} (hoffset : 0 ≤ offset) {turns : Nat}
    {stream : StringStream} {state : σ} {p : Pending} (hstring : stream.string = line)
    (hpos : 0 ≤ stream.pos) (hle : stream.pos ≤ line.length)
    (hturns : line.length < stream.pos + turns) (hread : p.read = offset + stream.pos)
    (h : p.Settled q) (hq : q < offset + stream.pos) :
    ∃ p' state' q', readLine mode line offset turns stream state p = some (p', state') ∧
      p'.Settled q' ∧ q' < p'.read ∧ 0 ≤ p'.read ∧ p'.read ≤ offset + line.length := by
  have hstay : ∃ q', p.Settled q' ∧ q' < p.read ∧ 0 ≤ p.read ∧ p.read ≤ offset + line.length :=
    ⟨q, h, by omega, by omega, by omega⟩
  induction turns generalizing stream state p q with
  | zero => omega
  | succ turns ih =>
    rw [readLine]
    split
    · obtain ⟨q', hstay⟩ := hstay
      exact ⟨p, some state, q', rfl, hstay⟩
    next heol =>
    split
    · obtain ⟨q', hstay⟩ := hstay
      exact ⟨p, none, q', rfl, hstay⟩
    next style stream' state' htoken =>
    obtain ⟨hstring', hstart, hlt, hle'⟩ :=
      readToken_spec hmode hpos (Bool.not_eq_true _ ▸ heol) htoken
    split
    · obtain ⟨q', hstay⟩ := hstay
      exact ⟨p, none, q', rfl, hstay⟩
    next kind _ =>
    rw [hstring] at hstring' hle'
    have hadd : ({ p.add (offset + stream.pos) kind with read := offset + stream'.pos } :
        Pending).Settled (offset + stream.pos) := (h.add hq (by omega) kind).withRead _
    rw [hstart]
    exact ih hstring' (by omega) hle' (by omega) rfl hadd (by omega)
      ⟨_, hadd, by dsimp only; omega, by dsimp only; omega, by dsimp only; omega⟩

/-- The loop over the lines returns, and settles what it read, up to the end of the source. -/
theorem readLines_spec {total turns : Nat} (hturns : total < turns) {all lines : List (Text × Nat)}
    {i start : Nat} {ended : Option Nat} {state : σ} {p : Pending} {q : Int}
    (hlines : LinesFrom total start lines) (h : (p.addBreak ended).Settled q) (hq : q < start) :
    ∃ p' q', readLines mode turns all i ended lines state p = some p' ∧ p'.Settled q' ∧
      q' ≤ total := by
  induction lines generalizing i start ended state p q with
  | nil => exact hlines.elim
  | cons entry rest ih =>
    obtain ⟨line, offset⟩ := entry
    obtain ⟨rfl, hle⟩ : offset = start ∧ offset + line.length ≤ total := by
      cases rest with
      | nil => exact ⟨hlines.1, hlines.2.le⟩
      | cons next rest =>
        obtain ⟨hoffset, hlt, hrest⟩ := hlines
        exact ⟨hoffset, hlt.le.trans (hrest.start_le)⟩
    have hbreak := h.withRead offset
    rw [readLines]
    split
    · exact ⟨_, offset, rfl, hbreak.add hq (Int.natCast_nonneg _) none, by omega⟩
    next state₁ _ =>
    have hstring : (streamFor mode line (lookAheadFrom all i)).string = line := rfl
    have hpos : (streamFor mode line (lookAheadFrom all i)).pos = 0 := rfl
    obtain ⟨p₁, state₂, q₁, heq, hsettled, hq₁, hzero, hread⟩ :=
      @readLine_spec σ mode hmode line offset q (Int.natCast_nonneg offset) turns _ state₁ _ hstring
        hpos.ge (by omega) (by omega) (by rw [hpos, Int.add_zero]) hbreak (by omega)
    simp only [heq]
    cases state₂ with
    | none => exact ⟨_, p₁.read, rfl, hsettled.add hq₁ hzero none, by omega⟩
    | some state₂ =>
      cases rest with
      | nil => exact ⟨p₁, q₁, rfl, hsettled, by omega⟩
      | cons next rest =>
        obtain ⟨-, hlt, hrest⟩ := hlines
        have hended := hsettled.add (show q₁ < (offset + line.length : Nat) by omega)
          (Int.natCast_nonneg _) none
        exact ih hrest hended (by omega)

/-- The tokens of a snippet lie end to end over it, no two neighbours of one kind, whatever the
    mode does on its lines and wherever it throws; of an empty snippet there is one empty token.
    As many turns for each line as the snippet has units are enough. -/
theorem codeMirrorTokens_spec (source : Text) {turns : Nat} (hturns : source.length < turns) :
    ∃ tokens, codeMirrorTokens mode turns source = some tokens ∧
      (if source = [] then ∃ kind, tokens = [⟨0, 0, kind⟩]
        else Tiling.Tiles CodeToken.start CodeToken.stop 0 tokens source.length) ∧
      tokens.IsChain fun s t => s.kind ≠ t.kind := by
  have hinit : ({} : Pending).Settled (-1) :=
    ⟨rfl, List.isChain_nil, fun _ ht => absurd ht (Option.not_mem_none _), Or.inr rfl⟩
  -- What is pending once all lines are read, or at once where the mode has no start state.
  obtain ⟨p, q, hpending, hsettled, hq⟩ : ∃ p q,
      (match mode.startState with
      | none => some (({} : Pending).add 0 none)
      | some state =>
        readLines mode turns (splitLines source) 0 none (splitLines source) state {}) = some p ∧
      p.Settled q ∧ q ≤ source.length := by
    cases mode.startState with
    | none => exact ⟨_, 0, rfl, hinit.add (by omega) le_rfl none, Int.natCast_nonneg _⟩
    | some state =>
      exact readLines_spec hmode hturns (splitLines_spec source) hinit (by omega)
  have hstart : p.start ≤ source.length := by
    rcases hsettled.before with hle | hnil
    · exact hle.trans hq
    · exact (hsettled.start_eq hnil).trans_le (Int.natCast_nonneg _)
  have hzero := hsettled.start_nonneg
  by_cases hrest : p.start < source.length ∨ p.tokens = []
  · -- The rest of the source is one more token.
    refine ⟨p.tokens ++ [⟨p.start, source.length, p.kind⟩], ?_, ?_, ?_⟩
    · rw [codeMirrorTokens]
      exact (congrArg (Option.map _) hpending).trans (congrArg some (if_pos hrest))
    · split_ifs with hsource
      · subst hsource
        have hnil : p.tokens = [] := hrest.resolve_left (not_lt.2 hzero)
        exact ⟨p.kind, by rw [hnil, hsettled.start_eq hnil]; rfl⟩
      · have hlt : p.start < source.length := by
          rcases hrest with hlt | hnil
          · exact hlt
          · rw [hsettled.start_eq hnil, Int.natCast_pos]
            exact List.length_pos_iff.2 hsource
        exact Tiling.Tiles.concat (x := (⟨p.start, source.length, p.kind⟩ : CodeToken)) hsettled.tiles hlt
    · exact List.isChain_append.2 ⟨hsettled.differs, List.isChain_singleton _, fun t ht u hu => by
        rw [List.head?_cons, Option.mem_some_iff] at hu
        exact hu ▸ hsettled.last t ht⟩
  · rw [not_or, not_lt] at hrest
    have htiles := hsettled.tiles
    rw [le_antisymm hstart hrest.1] at htiles
    refine ⟨p.tokens, ?_, ?_, hsettled.differs⟩
    · rw [codeMirrorTokens]
      exact (congrArg (Option.map _) hpending).trans
        (congrArg some (if_neg (not_or.2 ⟨not_lt.2 hrest.1, hrest.2⟩)))
    · split_ifs with hsource
      · subst hsource
        exact absurd htiles.eq_nil hrest.2
      · exact htiles

omit hmode

/-- A mode that styles letters, throws at an exclamation mark and does not get past other units. -/
def lettersMode : Mode Unit where
  startState := some ()
  token stream _ :=
    let u := stream.string.codeUnitAt stream.pos
    if u = 0x21 then none
    else if 0x61 ≤ u ∧ u ≤ 0x7A ∧ stream.pos < stream.string.length then
      some (some (Text.ofString "keyword"), { stream.cursor with pos := stream.pos + 1 }, ())
    else some (none, stream.cursor, ())
  copyState := some

theorem lettersMode_staysOnLine : lettersMode.StaysOnLine := by
  intro stream state style cursor state' hpos htoken
  simp only [lettersMode] at htoken
  split_ifs at htoken with _ hletter
  · obtain ⟨-, rfl⟩ : _ ∧ _ := by simpa using htoken
    exact ⟨rfl, by have := hpos.1; dsimp only; omega, hletter.2.2⟩
  · obtain ⟨-, rfl⟩ : _ ∧ _ := by simpa using htoken
    exact ⟨rfl, hpos⟩

theorem codeMirrorTokens_spec_letters :
    ∃ tokens, codeMirrorTokens lettersMode 9 (Text.ofString "ab \r\nc!d") = some tokens ∧
      Tiling.Tiles CodeToken.start CodeToken.stop 0 tokens (Text.ofString "ab \r\nc!d").length := by
  obtain ⟨tokens, htokens, htiles, -⟩ := codeMirrorTokens_spec lettersMode_staysOnLine
    (Text.ofString "ab \r\nc!d") (show 8 < 9 by decide)
  rw [if_neg (by decide)] at htiles
  exact ⟨tokens, htokens, htiles⟩

/-- The line break is unstyled, and so is what is left where the mode throws. -/
example : (codeMirrorTokens lettersMode 9 (Text.ofString "ab \r\nc!d")).map
    (·.map fun t => (t.start, t.stop, t.kind.isSome)) =
    some [(0, 2, true), (2, 5, false), (5, 6, true), (6, 8, false)] := by
  decide

end

end CodeMirror

end Flark
