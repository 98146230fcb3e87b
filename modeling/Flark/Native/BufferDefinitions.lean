import Flark.Native.ReferenceDefinitions
import Flark.Native.Structure
import Mathlib.Data.List.DropRight
import Mathlib.Data.List.Forall2

/-!
# The definitions of a paragraph's lines

The buffer that the lines of a paragraph make (`LineBuffer`), and what `record_buffer_definitions`
records of the definitions found in it. `none` is a panic.

* `LineBuffer.new_spec`: the buffer of consecutive lines, line by line;
* `definitions_cover_lines`: the definitions of such a buffer end with its lines, and they are
  recorded where their characters are in the source.
-/

namespace Flark.Native

/-- `LineIndex::line_end`: past the last line, the last line's. -/
def LineIndex.lineEnd (li : LineIndex) (line0 : Nat) : Nat :=
  li.lineEnds.getD (min line0 (li.lineEnds.length - 1)) 0

/-- `LineSpan`, without what only the content records read. -/
structure LineSpan where
  line0 : Nat
  start : Nat
  virt : Nat
  deriving DecidableEq, Repr

/-- `LineBuffer`. -/
structure LineBuffer where
  text : Str
  starts : List Nat
  deriving DecidableEq, Repr

/-- `partition_point`, where the entries with `p` come first. -/
def partitionPoint (p : Nat → Bool) (xs : List Nat) : Nat := (xs.takeWhile p).length

namespace LineBuffer

/-- The loop of `LineBuffer::new`. -/
def newFrom (src : Str) (li : LineIndex) : List LineSpan → LineBuffer → Option LineBuffer
  | [], buffer => some { buffer with starts := buffer.starts ++ [Str.len buffer.text] }
  | l :: lines, buffer => do
    let piece ← Str.slice src l.start (li.lineEndWithBreak l.line0 (Str.len src))
    newFrom src li lines
      { text := buffer.text ++ (List.replicate l.virt ' ' ++ piece)
        starts := buffer.starts ++ [Str.len buffer.text] }

/-- `LineBuffer::new`. -/
def new (src : Str) (li : LineIndex) (lines : List LineSpan) : Option LineBuffer :=
  newFrom src li lines ⟨[], []⟩

variable (buffer : LineBuffer)

def lineAt (off : Nat) : Nat :=
  min (partitionPoint (fun s => decide (s ≤ off)) buffer.starts - 1) (buffer.starts.length - 2)

def byte (lines : List LineSpan) (off : Nat) : Option Nat := do
  let i := buffer.lineAt off
  let l ← lines[i]?
  let start ← buffer.starts[i]?
  if start ≤ off then return l.start + (off - start - l.virt) else none

end LineBuffer

section Record

variable (src : Str) (li : LineIndex) (lines : List LineSpan) (buffer : LineBuffer)

/-- A turn of the loop of `record_buffer_definitions`: what is recorded, and the lines consumed. -/
def recordDefinition (d : BufferDefinition) : Option (Definition × Nat) := do
  let lastLine := min (partitionPoint (fun s => decide (s < d.stop)) buffer.starts - 1)
    (lines.length - 1)
  let start ← buffer.byte lines d.start
  let last ← lines[lastLine]?
  let labelStart ← buffer.byte lines d.label.1
  let labelStop ← buffer.byte lines d.label.2
  let destStart ← buffer.byte lines d.dest.1
  let destStop ← buffer.byte lines d.dest.2
  return ({
    start := start
    stop := li.lineEndWithBreak last.line0 (Str.len src)
    label := (labelStart, labelStop)
    dest := (destStart, destStop) }, lastLine + 1)

/-- The loop of `record_buffer_definitions`. -/
def recordDefinitions : List BufferDefinition → (definitions : List Definition) →
    (consumedLines : Nat) → Option (List Definition × Nat)
  | [], definitions, consumedLines => some (definitions, consumedLines)
  | d :: defs, definitions, _ => do
    let (definition, consumedLines) ← recordDefinition src li lines buffer d
    recordDefinitions defs (definitions ++ [definition]) consumedLines

def isBlank (c : Char) : Bool := c == ' ' || c == '\t' || c == '\r' || c == '\n'

/-- `is_checkbox`, where `left` is what the definitions leave, from the offset `off` on. -/
def isCheckbox (checkbox : Option (Nat × Nat)) (off : Nat) (left : Str) : Option Bool :=
  match checkbox with
  | none => some false
  | some (start, stop) =>
    if left.contains '\n' then some false
    else do
      let byte ← buffer.byte lines off
      let upto := byte + Str.len left
      if byte = start ∧ upto ≤ stop then
        let rest ← sliceFrom (utf8 src) upto
        if stop ≤ (utf8 src).length then
          return (rest.take (stop - upto)).all fun b => b == 0x20 || b == 0x09
        else none
      else return false

/-- What `definition-gap` shows, if lines that must hold nothing else hold more. -/
def definitionGap (defs : List BufferDefinition) (checkbox : Option (Nat × Nat)) :
    Option (Option Str) := do
  let tail := (defs.getLast?.map BufferDefinition.stop).getD 0
  let rest ← Str.sliceFrom buffer.text (min tail (Str.len buffer.text))
  let lead := Str.len rest - Str.len (rest.dropWhile isBlank)
  let left := (rest.dropWhile isBlank).rdropWhile isBlank
  let found ← isCheckbox src lines buffer checkbox (tail + lead) left
  return if left ≠ [] ∧ found = false then some rest else none

/-- `record_buffer_definitions`: what is recorded, what `definition-gap` shows, and the lines
    consumed. -/
def recordBufferDefinitions (defs : List BufferDefinition) (exact : Bool)
    (checkbox : Option (Nat × Nat)) : Option (List Definition × Option Str × Nat) := do
  let (definitions, consumedLines) ← recordDefinitions src li lines buffer defs [] 0
  let gap ← (if exact then definitionGap src lines buffer defs checkbox else some none)
  return (definitions, gap, consumedLines)

end Record

/-! ## The lines of a source -/

/-- The ending of a line before `rest`: there is none at the end of the source only. -/
inductive IsEnding : (ending rest : Str) → Prop
  | last : IsEnding [] []
  | feed {rest : Str} : IsEnding ['\n'] rest
  | returnFeed {rest : Str} : IsEnding ['\r', '\n'] rest
  | bareReturn {rest : Str} (h : rest.head? ≠ some '\n') : IsEnding ['\r'] rest

/-- The source from offset `i` on is `src`, and has a line from `start` to `stop`, whose ending is
    up to `next`. -/
structure IsLine (i : Nat) (src : Str) (start stop next : Nat) (before line ending after : Str) :
    Prop where
  split : src = before ++ (line ++ (ending ++ after))
  start_eq : i + Str.len before = start
  stop_eq : start + Str.len line = stop
  next_eq : stop + Str.len ending = next
  plain : ∀ c ∈ line, c ≠ '\n' ∧ c ≠ '\r'
  isEnding : IsEnding ending after

/-- A line of a text is one of a longer text. -/
theorem IsLine.prepend {i start stop next : Nat} {src before line ending after : Str} (more : Str)
    (h : IsLine (i + Str.len more) src start stop next before line ending after) :
    IsLine i (more ++ src) start stop next (more ++ before) line ending after := by
  obtain ⟨rfl, rfl, rfl, rfl, hplain, hending⟩ := h
  exact ⟨by simp only [List.append_assoc], by rw [Str.len_append, Nat.add_assoc], rfl, rfl, hplain,
    hending⟩

/-- The lines of `src`, which starts at `i`, from the first on: their starts without the first, and
    their ends. -/
def HasLines (i : Nat) (src : Str) (starts ends : List Nat) : Prop :=
  ends.length = starts.length + 1 ∧ ∀ k ≤ starts.length, ∃ before line ending after,
    IsLine i src ((i :: starts).getD k 0) (ends.getD k 0)
      ((i :: starts).getD (k + 1) (i + Str.len src)) before line ending after ∧
      (ending = [] → k = starts.length)

/-- An ending, and the line it ends, which is empty so far. -/
theorem HasLines.ending {i : Nat} {ending src : Str} {starts ends : List Nat}
    (h : HasLines (i + Str.len ending) src starts ends) (hending : IsEnding ending src)
    (hne : ending ≠ []) :
    HasLines i (ending ++ src) ((i + Str.len ending) :: starts) (i :: ends) := by
  refine ⟨congrArg (· + 1) h.1, fun k hk => ?_⟩
  cases k with
  | zero =>
    exact ⟨[], [], ending, src, ⟨rfl, rfl, rfl, rfl, fun c hc => absurd hc List.not_mem_nil,
      hending⟩, fun hnil => absurd hnil hne⟩
  | succ k =>
    obtain ⟨before, line, ending', after, hline, hlast⟩ := h.2 k (Nat.le_of_succ_le_succ hk)
    refine ⟨ending ++ before, line, ending', after, ?_, fun hnil => congrArg (· + 1) (hlast hnil)⟩
    rw [Str.len_append, ← Nat.add_assoc]
    exact hline.prepend ending

/-- One scalar more of the first line. -/
theorem HasLines.plain {i : Nat} {c : Char} {src : Str} {starts ends : List Nat}
    (h : HasLines (i + Str.len [c]) src starts ends) (hc : c ≠ '\n' ∧ c ≠ '\r') :
    HasLines i (c :: src) starts ends := by
  refine ⟨h.1, fun k hk => ?_⟩
  obtain ⟨before, line, ending, after, hline, hlast⟩ := h.2 k hk
  have hlen : i + Str.len (c :: src) = i + Str.len [c] + Str.len src := by
    rw [← List.singleton_append, Str.len_append, Nat.add_assoc]
  rw [hlen]
  cases k with
  | zero =>
    obtain ⟨hsplit, hstart, hstop, hnext, hplain, hending⟩ := hline
    rw [List.getD_cons_zero, Nat.add_eq_left, Str.len_eq_zero] at hstart
    subst hstart
    refine ⟨[], c :: line, ending, after, ⟨by rw [hsplit]; rfl, rfl, ?_, hnext,
      List.forall_mem_cons.2 ⟨hc, hplain⟩, hending⟩, hlast⟩
    rw [← hstop, List.getD_cons_zero, List.getD_cons_zero, ← List.singleton_append (l := line),
      Str.len_append, Nat.add_assoc]
  | succ k => exact ⟨c :: before, line, ending, after, hline.prepend [c], hlast⟩

theorem len_singleton (c : Char) : Str.len [c] = (String.utf8EncodeChar c).length := by
  rw [Str.len_cons, Str.len_nil, Nat.add_zero, String.length_utf8EncodeChar]

/-- The tables hold the lines. -/
theorem hasLines_ofChars (i count : Nat) (cs : Str) :
    HasLines i cs (LineIndex.ofChars i count cs).lineStarts
      (LineIndex.ofChars i count cs).lineEnds := by
  induction i, count, cs using LineIndex.ofChars.induct with
  | case1 i count =>
    refine ⟨rfl, fun k hk => ?_⟩
    obtain rfl : k = 0 := Nat.le_zero.1 hk
    exact ⟨[], [], [], [], ⟨rfl, rfl, rfl, rfl, by simp, IsEnding.last⟩, fun _ => rfl⟩
  | case2 i count cs ih => exact @HasLines.ending _ ['\r', '\n'] _ _ _ ih .returnFeed (by simp)
  | case3 i count c cs hbare hbreak ih =>
    rw [LineIndex.ofChars.eq_3 _ _ _ _ hbare, if_pos hbreak]
    rw [← len_singleton] at ih ⊢
    rcases hbreak with rfl | rfl
    · exact @HasLines.ending _ ['\n'] _ _ _ ih .feed (by simp)
    · refine @HasLines.ending _ ['\r'] _ _ _ ih (.bareReturn fun hhead => ?_) (by simp)
      obtain ⟨cs', rfl⟩ := List.head?_eq_some_iff.1 hhead
      exact hbare cs' rfl rfl
  | case4 i count c cs hbare hplain ih =>
    rw [LineIndex.ofChars.eq_3 _ _ _ _ hbare, if_neg hplain]
    rw [← len_singleton] at ih ⊢
    exact ih.plain (not_or.1 hplain)

/-- The lines of the whole source. -/
theorem exists_isLine {src : Str} (h : Str.len src < 2 ^ 32) {line0 : Nat}
    (hline : line0 < (LineIndex.new (utf8 src)).lineCount) :
    ∃ before line ending after, IsLine 0 src ((LineIndex.new (utf8 src)).lineStart line0)
      ((LineIndex.new (utf8 src)).lineEnd line0)
      ((LineIndex.new (utf8 src)).lineEndWithBreak line0 (Str.len src)) before line ending after ∧
      (ending = [] → line0 + 1 = (LineIndex.new (utf8 src)).lineCount) := by
  rw [LineIndex.lineCount] at hline
  rw [LineIndex.lineStart, LineIndex.lineEnd, LineIndex.lineEndWithBreak, LineIndex.lineCount]
  rw [LineIndex.new_utf8 h] at hline ⊢
  obtain ⟨hends, hlines⟩ := hasLines_ofChars 0 0 src
  generalize LineIndex.ofChars 0 0 src = li at hends hlines hline ⊢
  dsimp only at hline ⊢
  rw [List.length_cons] at hline ⊢
  obtain ⟨before, line, ending, after, h, hlast⟩ := hlines line0 (Nat.le_of_lt_succ hline)
  rw [Nat.min_eq_left (by omega), Nat.min_eq_left (by omega)]
  refine ⟨before, line, ending, after, ?_, fun hnil => congrArg (· + 1) (hlast hnil)⟩
  convert h using 1
  by_cases hnext : line0 + 1 < li.lineStarts.length + 1
  · rw [if_pos hnext, List.getD_eq_getElem _ _ (by simpa using hnext),
      List.getD_eq_getElem _ _ (by simpa using hnext)]
  · rw [if_neg hnext, List.getD_eq_default _ _ (by simpa using hnext), Nat.zero_add]

/-! ## The pieces of a buffer -/

/-- Consecutive lines of the source, each from a place before its ending on. -/
structure ConsecutiveLines (src : Str) (li : LineIndex) (lines : List LineSpan) : Prop where
  consecutive : lines.IsChain fun l l' => l'.line0 = l.line0 + 1
  lt : ∀ l ∈ lines, l.line0 < li.lineCount
  start_le : ∀ l ∈ lines, li.lineStart l.line0 ≤ l.start ∧ l.start ≤ li.lineEnd l.line0
  boundary : ∀ l ∈ lines, Str.isCharBoundary src l.start = true

/-- The piece that a line gives to the buffer: its virtual spaces, the rest of the line from its
    start on, and its ending. -/
structure IsPiece (src : Str) (li : LineIndex) (l : LineSpan) (before line ending after : Str) :
    Prop where
  split : src = before ++ (line ++ (ending ++ after))
  start_eq : Str.len before = l.start
  next_eq : l.start + Str.len line + Str.len ending = li.lineEndWithBreak l.line0 (Str.len src)
  plain : ∀ c ∈ line, c ≠ '\n' ∧ c ≠ '\r'
  isEnding : IsEnding ending after
  last : ending = [] → l.line0 + 1 = li.lineCount

/-- Each of consecutive lines is a piece of the source. -/
theorem exists_isPiece {src : Str} {lines : List LineSpan} (h : Str.len src < 2 ^ 32)
    (hlines : ConsecutiveLines src (LineIndex.new (utf8 src)) lines) {l : LineSpan} (hl : l ∈ lines) :
    ∃ before line ending after,
      IsPiece src (LineIndex.new (utf8 src)) l before line ending after := by
  obtain ⟨before, line, ending, after, ⟨hsplit, hstart, hstop, hnext, hplain, hending⟩, hlast⟩ :=
    exists_isLine h (hlines.lt l hl)
  obtain ⟨hle, hle'⟩ := hlines.start_le l hl
  obtain ⟨p, q, hsrc, hp⟩ := Str.isCharBoundary_iff.1 (hlines.boundary l hl)
  -- The start splits the line.
  obtain ⟨skipped, rfl, hq⟩ := Str.append_eq_append (hsplit.symm.trans hsrc) (by omega)
  obtain ⟨rest, rfl, rfl⟩ := @Str.append_eq_append skipped line _ _ hq.symm (by
    rw [Str.len_append] at hp
    omega)
  rw [Str.len_append] at hp hstop
  exact ⟨before ++ skipped, rest, ending, after, hsrc, by rw [Str.len_append, hp], by omega,
    fun c hc => hplain c (List.mem_append_right _ hc), hending, hlast⟩

/-- What each line gives to the buffer. -/
def Pieces (src : Str) (li : LineIndex) : List LineSpan → List Str → Prop :=
  List.Forall₂ fun l p => ∃ before line ending after,
    IsPiece src li l before line ending after ∧ p = List.replicate l.virt ' ' ++ (line ++ ending)

/-- Consecutive lines have their pieces. -/
theorem exists_pieces {src : Str} {lines : List LineSpan} (h : Str.len src < 2 ^ 32)
    (hlines : ConsecutiveLines src (LineIndex.new (utf8 src)) lines) :
    ∃ ps, Pieces src (LineIndex.new (utf8 src)) lines ps := by
  have hpiece : ∀ l ∈ lines, ∃ p before line ending after,
      IsPiece src (LineIndex.new (utf8 src)) l before line ending after ∧
        p = List.replicate l.virt ' ' ++ (line ++ ending) := fun l hl => by
    obtain ⟨before, line, ending, after, h⟩ := exists_isPiece h hlines hl
    exact ⟨_, before, line, ending, after, h, rfl⟩
  clear hlines
  induction lines with
  | nil => exact ⟨[], List.Forall₂.nil⟩
  | cons l lines ih =>
    rw [List.forall_mem_cons] at hpiece
    obtain ⟨p, hp⟩ := hpiece.1
    obtain ⟨ps, hps⟩ := ih hpiece.2
    exact ⟨p :: ps, List.Forall₂.cons hp hps⟩

/-- Where pieces begin from `n` on, and where the last of them ends. -/
def startsOf : (n : Nat) → List Str → List Nat
  | n, [] => [n]
  | n, p :: ps => n :: startsOf (n + Str.len p) ps

/-- The pieces start one behind the other. -/
theorem pairwise_startsOf (n : Nat) (ps : List Str) :
    (startsOf n ps).Pairwise (· ≤ ·) ∧ ∀ m ∈ startsOf n ps, n ≤ m := by
  induction ps generalizing n with
  | nil => simp [startsOf]
  | cons p ps ih =>
    obtain ⟨hpairwise, hle⟩ := ih (n + Str.len p)
    have hle' : ∀ m ∈ startsOf (n + Str.len p) ps, n ≤ m := fun m hm =>
      (Nat.le_add_right n _).trans (hle m hm)
    exact ⟨List.pairwise_cons.2 ⟨hle', hpairwise⟩, List.forall_mem_cons.2 ⟨le_rfl, hle'⟩⟩

/-- The loop appends the pieces, and notes where each starts. -/
theorem LineBuffer.newFrom_spec {src : Str} {li : LineIndex} {lines : List LineSpan} {ps : List Str}
    (h : Pieces src li lines ps) (buffer : LineBuffer) :
    newFrom src li lines buffer =
      some ⟨buffer.text ++ ps.flatten, buffer.starts ++ startsOf (Str.len buffer.text) ps⟩ := by
  induction h generalizing buffer with
  | nil => simp [newFrom, startsOf]
  | @cons l p lines ps hp h ih =>
    obtain ⟨before, line, ending, after, ⟨hsplit, hstart, hnext, -, -, -⟩, rfl⟩ := hp
    have hslice : Str.slice src l.start (li.lineEndWithBreak l.line0 (Str.len src)) =
        some (line ++ ending) := by
      refine Str.slice_eq_some.2 ⟨before, after, ?_, hstart, ?_⟩
      · rw [hsplit, List.append_assoc]
      · rw [Str.len_append, ← hnext, Nat.add_assoc]
    rw [newFrom, hslice, Option.bind_eq_bind, Option.bind_some, ih, startsOf]
    simp only [List.flatten_cons, Str.len_append, List.append_assoc, List.singleton_append]

/-- There is one start more than there are pieces. -/
theorem length_startsOf (n : Nat) (ps : List Str) : (startsOf n ps).length = ps.length + 1 := by
  induction ps generalizing n with
  | nil => rfl
  | cons p ps ih => rw [startsOf, List.length_cons, ih, List.length_cons]

/-- A piece starts behind those before it. -/
theorem getElem?_startsOf (n : Nat) (ps more : List Str) :
    (startsOf n (ps ++ more))[ps.length]? = some (n + Str.len ps.flatten) := by
  induction ps generalizing n with
  | nil => cases more <;> rfl
  | cons p ps ih =>
    rw [List.cons_append, startsOf, List.length_cons, List.getElem?_cons_succ, ih,
      List.flatten_cons, Str.len_append, Nat.add_assoc]

/-- The search goes past the starts before a piece. -/
theorem partitionPoint_startsOf {q : Nat → Bool} {n : Nat} {p : Str} {ps more : List Str}
    (hq : ∀ m ≤ n + Str.len ps.flatten, q m = true) :
    partitionPoint q (startsOf n (ps ++ p :: more)) =
      ps.length + 1 + partitionPoint q (startsOf (n + Str.len ps.flatten + Str.len p) more) := by
  unfold partitionPoint
  induction ps generalizing n with
  | nil =>
    rw [List.nil_append, startsOf, List.takeWhile_cons_of_pos (hq n (Nat.le_add_right _ _))]
    simp [Nat.add_comm]
  | cons p' ps ih =>
    rw [List.flatten_cons, Str.len_append, ← Nat.add_assoc] at hq ⊢
    rw [List.cons_append, startsOf, List.takeWhile_cons_of_pos (hq n (by omega)), List.length_cons,
      ih hq, List.length_cons]
    omega

/-- The search stops at the first start that is too far. -/
theorem partitionPoint_of_not {q : Nat → Bool} {n : Nat} (ps : List Str) (hq : q n = false) :
    partitionPoint q (startsOf n ps) = 0 := by
  unfold partitionPoint
  cases ps with
  | nil => rw [startsOf, List.takeWhile_cons_of_neg (by simp [hq]), List.length_nil]
  | cons p ps => rw [startsOf, List.takeWhile_cons_of_neg (by simp [hq]), List.length_nil]

/-- A byte of the pieces is in one of them. -/
theorem exists_piece {ps : List Str} {i : Nat} (h : i < Str.len ps.flatten) :
    ∃ earlier p later, ps = earlier ++ p :: later ∧ Str.len earlier.flatten ≤ i ∧
      i < Str.len earlier.flatten + Str.len p := by
  induction ps generalizing i with
  | nil => exact absurd h (Nat.not_lt_zero i)
  | cons p ps ih =>
    rw [List.flatten_cons, Str.len_append] at h
    by_cases hi : i < Str.len p
    · exact ⟨[], p, ps, rfl, Nat.zero_le i, by simpa using hi⟩
    · obtain ⟨earlier, p', later, rfl, hle, hlt⟩ := ih (i := i - Str.len p) (by omega)
      refine ⟨p :: earlier, p', later, rfl, ?_, ?_⟩
      · rw [List.flatten_cons, Str.len_append]
        omega
      · rw [List.flatten_cons, Str.len_append]
        omega

/-- A byte of the buffer is read in its piece. -/
theorem getElem?_pieces {earlier later : List Str} {p : Str} {i : Nat}
    (h : i < Str.len p) :
    (utf8 (earlier ++ p :: later).flatten)[Str.len earlier.flatten + i]? = (utf8 p)[i]? := by
  rw [List.flatten_append, List.flatten_cons, Str.utf8_append, Str.utf8_append,
    List.getElem?_append_right (Nat.le_add_right (Str.len earlier.flatten) i), Str.length_utf8,
    Nat.add_sub_cancel_left,
    List.getElem?_append_left h]

theorem utf8_spaces (n : Nat) : utf8 (List.replicate n ' ') = List.replicate n 0x20 := by
  induction n with
  | zero => rfl
  | succ n ih => rw [List.replicate_succ, utf8_cons, ih, List.replicate_succ]; rfl

theorem len_spaces (n : Nat) : Str.len (List.replicate n ' ') = n := by
  rw [Str.len, utf8_spaces, List.length_replicate]

/-- A line's end is white space. -/
theorem IsEnding.isspace {ending rest : Str} (h : IsEnding ending rest) :
    ∀ b ∈ utf8 ending, isspace b = true := by
  cases h with
  | last => exact fun b hb => absurd hb List.not_mem_nil
  | feed => exact fun b hb => by rw [List.mem_singleton.1 hb]; rfl
  | returnFeed =>
    intro b hb
    rcases List.mem_cons.1 hb with rfl | hb
    · rfl
    · rw [List.mem_singleton.1 hb]; rfl
  | bareReturn => exact fun b hb => by rw [List.mem_singleton.1 hb]; rfl

/-- What is written in a piece is in its line: the virtual spaces and the ending are blank. -/
theorem written_piece {virt i : Nat} {line ending rest : Str} (hending : IsEnding ending rest)
    (h : Written (utf8 (List.replicate virt ' ' ++ (line ++ ending))) i) :
    virt ≤ i ∧ i < virt + Str.len line := by
  obtain ⟨b, hb, hspace⟩ := h
  rw [Str.utf8_append, Str.utf8_append, utf8_spaces] at hb
  constructor
  · by_contra hi
    rw [not_le] at hi
    rw [List.getElem?_append_left (by simpa using hi), List.getElem?_replicate, if_pos hi] at hb
    rw [← Option.some.inj hb] at hspace
    cases hspace
  · by_contra hi
    rw [not_lt] at hi
    rw [List.getElem?_append_right (by simp; omega), List.length_replicate,
      List.getElem?_append_right (by rw [Str.length_utf8]; omega)] at hb
    rw [hending.isspace b (List.mem_of_getElem? hb)] at hspace
    cases hspace

/-- A byte of a piece that ends a line is in its ending. -/
theorem break_piece {virt i : Nat} {line ending : Str} {b : UInt8}
    (hplain : ∀ c ∈ line, c ≠ '\n' ∧ c ≠ '\r') (hb : b = 0x0A ∨ b = 0x0D)
    (h : (utf8 (List.replicate virt ' ' ++ (line ++ ending)))[i]? = some b) :
    ∃ j, i = virt + Str.len line + j ∧ (utf8 ending)[j]? = some b := by
  rw [Str.utf8_append, Str.utf8_append, utf8_spaces] at h
  by_cases hvirt : i < virt
  · rw [List.getElem?_append_left (by simpa using hvirt), List.getElem?_replicate, if_pos hvirt] at h
    obtain rfl := Option.some.inj h
    exact absurd hb (by decide)
  · rw [List.getElem?_append_right (by simp; omega), List.length_replicate] at h
    by_cases hline : i - virt < Str.len line
    · rw [List.getElem?_append_left hline] at h
      obtain ⟨c, hc, hbc⟩ := List.mem_flatMap.1 (List.mem_of_getElem? h)
      obtain ⟨hfeed, hreturn⟩ := hplain c hc
      obtain ⟨hb₁, hb₂⟩ := LineIndex.not_break_of_mem_utf8EncodeChar hfeed hreturn b hbc
      exact (hb.elim hb₁ hb₂).elim
    · rw [List.getElem?_append_right (not_lt.1 hline), Str.length_utf8] at h
      exact ⟨i - virt - Str.len line, by omega, h⟩

/-- A byte of a line's end is read behind the line. -/
theorem getElem?_ending (virt j : Nat) (line ending : Str) :
    (utf8 (List.replicate virt ' ' ++ (line ++ ending)))[virt + Str.len line + j]? =
      (utf8 ending)[j]? := by
  have hlen : (utf8 (List.replicate virt ' ' ++ line)).length = virt + Str.len line := by
    rw [Str.length_utf8, Str.len_append, len_spaces]
  rw [← List.append_assoc, Str.utf8_append, List.getElem?_append_right (by omega), hlen,
    Nat.add_sub_cancel_left]

/-- A line feed ends a piece, and so does a carriage return that none follows. -/
theorem IsEnding.last_byte {ending rest : Str} (h : IsEnding ending rest) {j : Nat}
    (hb : (utf8 ending)[j]? = some 0x0A ∨
      (utf8 ending)[j]? = some 0x0D ∧ (utf8 ending)[j + 1]? ≠ some 0x0A) :
    j + 1 = Str.len ending := by
  cases h with
  | last => simp at hb
  | feed | bareReturn =>
    rcases j with - | j
    · rfl
    · exact absurd hb (by simp [String.utf8EncodeChar])
  | returnFeed =>
    rcases j with - | - | j
    · exact absurd hb (by decide)
    · rfl
    · exact absurd hb (by simp [String.utf8EncodeChar])

/-- The scalar of `t` that starts at `j` is the one of `s` that starts at `i`; at the ends there is
    none. -/
def SameChar (s : Str) (i : Nat) (t : Str) (j : Nat) : Prop :=
  ∃ p q p' q', s = p ++ q ∧ Str.len p = i ∧ t = p' ++ q' ∧ Str.len p' = j ∧ q.head? = q'.head?

/-- The offset `off` is in line `k` of the buffer, which is `l`, and at the byte `byte` of the
    source. -/
structure Place (src : Str) (li : LineIndex) (lines : List LineSpan) (buffer : LineBuffer)
    (off k : Nat) (l : LineSpan) (byte : Nat) : Prop where
  line : lines[k]? = some l
  start_le : buffer.starts.getD k 0 ≤ off
  le_next : off ≤ buffer.starts.getD (k + 1) 0
  lt_next : Written (utf8 buffer.text) off → off < buffer.starts.getD (k + 1) 0
  start_lt : ¬Written (utf8 buffer.text) off → buffer.starts.getD k 0 < off
  byte_eq : buffer.byte lines off = some byte
  place_eq : byte + buffer.starts.getD k 0 + l.virt = l.start + off
  le_byte : l.start ≤ byte
  byte_le : byte ≤ li.lineEndWithBreak l.line0 (Str.len src)
  byte_lt : l.line0 + 1 < li.lineCount → byte < li.lineEndWithBreak l.line0 (Str.len src)

section Pieces

variable {src : Str} {li : LineIndex} {lines : List LineSpan} {earlier later : List Str} {p : Str}
  {l : LineSpan}

/-- The line of a piece. -/
theorem Pieces.split (h : Pieces src li lines (earlier ++ p :: later)) :
    ∃ l before line ending after, lines[earlier.length]? = some l ∧
      IsPiece src li l before line ending after ∧ p = List.replicate l.virt ' ' ++ (line ++ ending) ∧
      (later = [] ∨ ∃ l', lines[earlier.length + 1]? = some l') := by
  obtain ⟨l, rest, ⟨before, line, ending, after, hp⟩, hrest, hdrop⟩ :=
    List.forall₂_cons_right_iff.1 (List.forall₂_drop_append _ _ _ h)
  have hget : ∀ k, lines[earlier.length + k]? = (l :: rest)[k]? := fun k => by
    rw [← hdrop, List.getElem?_drop]
  refine ⟨l, before, line, ending, after, hget 0, hp.1, hp.2, ?_⟩
  rw [hget 1]
  cases hrest with
  | nil => exact Or.inl rfl
  | @cons l' _ => exact Or.inr ⟨l', rfl⟩

/-- The start of a piece is the length before it. -/
theorem getD_startsOf : (startsOf 0 (earlier ++ p :: later)).getD earlier.length 0 =
    Str.len earlier.flatten := by
  rw [List.getD_eq_getElem?_getD, getElem?_startsOf, Option.getD_some, Nat.zero_add]

/-- The start behind a piece is the length up to its end. -/
theorem getD_startsOf_succ : (startsOf 0 (earlier ++ p :: later)).getD (earlier.length + 1) 0 =
    Str.len earlier.flatten + Str.len p := by
  have := getElem?_startsOf 0 (earlier ++ [p]) later
  rw [List.append_assoc, List.singleton_append, List.length_append, List.length_singleton] at this
  rw [List.getD_eq_getElem?_getD, this, Option.getD_some, Nat.zero_add, List.flatten_append,
    Str.len_append, List.flatten_singleton]

/-- The line that holds an offset, or the last one. -/
theorem byte_of_piece {off : Nat} (hl : lines[earlier.length]? = some l)
    (hle : Str.len earlier.flatten ≤ off)
    (hlt : off < Str.len earlier.flatten + Str.len p ∨ later = []) :
    LineBuffer.byte ⟨(earlier ++ p :: later).flatten, startsOf 0 (earlier ++ p :: later)⟩ lines off =
      some (l.start + (off - Str.len earlier.flatten - l.virt)) := by
  have hat : LineBuffer.lineAt
      ⟨(earlier ++ p :: later).flatten, startsOf 0 (earlier ++ p :: later)⟩ off = earlier.length := by
    rw [LineBuffer.lineAt, partitionPoint_startsOf (fun m hm => by
      rw [decide_eq_true_eq]
      omega), length_startsOf, List.length_append, List.length_cons]
    rcases hlt with hlt | rfl
    · rw [partitionPoint_of_not _ (by rw [decide_eq_false_iff_not]; omega)]
      omega
    · rw [List.length_nil]
      omega
  have hstart := getElem?_startsOf 0 earlier (p :: later)
  rw [LineBuffer.byte]
  dsimp only
  rw [hat, hl, Option.bind_eq_bind, Option.bind_some, hstart, Option.bind_eq_bind, Option.bind_some,
    Nat.zero_add, if_pos hle]
  rfl

/-- An offset in a line of a buffer. -/
theorem place_of_piece {off j : Nat} {before line ending after : Str}
    (hl : lines[earlier.length]? = some l) (hp : IsPiece src li l before line ending after)
    (hpiece : p = List.replicate l.virt ' ' ++ (line ++ ending))
    (hlater : later = [] ∨ l.line0 + 1 < li.lineCount) (hj : j ≤ Str.len line)
    (hoff : off = Str.len earlier.flatten + l.virt + j)
    (hwritten : Written (utf8 (earlier ++ p :: later).flatten) off → j < Str.len line)
    (hbehind : ¬Written (utf8 (earlier ++ p :: later).flatten) off → Str.len earlier.flatten < off) :
    Place src li lines ⟨(earlier ++ p :: later).flatten, startsOf 0 (earlier ++ p :: later)⟩ off
      earlier.length l (l.start + j) := by
  have hlen : Str.len p = l.virt + Str.len line + Str.len ending := by
    rw [hpiece, Str.len_append, Str.len_append, len_spaces, Nat.add_assoc]
  have hnext := hp.next_eq
  have hending : l.line0 + 1 < li.lineCount → 0 < Str.len ending := fun hlt =>
    Str.len_pos.2 fun hnil => by
      have := hp.last hnil
      omega
  refine ⟨hl, ?_, ?_, ?_, ?_, ?_, ?_, Nat.le_add_right _ j, by omega, fun hlt => ?_⟩
  · rw [getD_startsOf]
    omega
  · rw [getD_startsOf_succ]
    omega
  · intro h
    have := hwritten h
    rw [getD_startsOf_succ]
    omega
  · rwa [getD_startsOf]
  -- The virtual spaces of the line are the buffer's own: the byte is that of the source behind
  -- them.
  · rw [byte_of_piece hl (by omega)]
    · congr 1
      omega
    · rcases hlater with hlater | hlater
      · exact Or.inr hlater
      · have := hending hlater
        left
        omega
  · rw [getD_startsOf]
    omega
  · have := hending hlt
    omega

/-- What follows in the line is the same in the buffer and in the source. -/
theorem sameChar_of_piece {off j : Nat} {before line ending after : Str}
    (hp : IsPiece src li l before line ending after)
    (hpiece : p = List.replicate l.virt ' ' ++ (line ++ ending))
    (hlater : ending = [] → later = []) (hj : j ≤ Str.len line)
    (hoff : off = Str.len earlier.flatten + l.virt + j)
    (hcut : Str.isCharBoundary (earlier ++ p :: later).flatten off = true) :
    SameChar (earlier ++ p :: later).flatten off src (l.start + j) := by
  obtain ⟨u, v, huv, hu⟩ := Str.isCharBoundary_iff.1 hcut
  have htext : (earlier ++ p :: later).flatten =
      (earlier.flatten ++ List.replicate l.virt ' ') ++ (line ++ (ending ++ later.flatten)) := by
    rw [List.flatten_append, List.flatten_cons, hpiece]
    simp only [List.append_assoc]
  have hlen : Str.len (earlier.flatten ++ List.replicate l.virt ' ') =
      Str.len earlier.flatten + l.virt := by rw [Str.len_append, len_spaces]
  obtain ⟨m, rfl, hm⟩ := Str.append_eq_append (htext.symm.trans huv) (by omega)
  rw [Str.len_append, hlen] at hu
  obtain ⟨rest, rfl, rfl⟩ := Str.append_eq_append hm.symm (by omega)
  refine ⟨_, _, before ++ m, rest ++ (ending ++ after), huv, by rw [Str.len_append]; omega, ?_, ?_,
    ?_⟩
  · rw [hp.split]
    simp only [List.append_assoc]
  · rw [Str.len_append, hp.start_eq]
    omega
  · cases rest with
    | cons c rest => rfl
    | nil =>
      rcases hend : ending with - | ⟨c, ending'⟩
      · have hafter := hp.isEnding
        rw [hend] at hafter
        cases hafter
        rw [hlater hend]
        rfl
      · rfl

end Pieces

/-- At a line's end the text can be cut. -/
theorem AtLineEnd.cut {s : List UInt8} {off : Nat} (h : AtLineEnd s off) : Cut s off := by
  rcases h with hlen | ⟨i, rfl, hfeed | ⟨hreturn, -⟩⟩
  · exact Or.inl hlen
  · exact Cut.behind hfeed (by decide)
  · exact Cut.behind hreturn (by decide)

/-- Where the bytes can be cut, a character begins. -/
theorem Cut.isCharBoundary {s : Str} {off : Nat} (h : Cut (utf8 s) off) :
    Str.isCharBoundary s off = true := by
  rcases h with rfl | ⟨b, hb, h | ⟨i, rfl, h⟩⟩
  · exact Str.isCharBoundary_iff.2 ⟨s, [], (List.append_nil s).symm, rfl⟩
  · obtain ⟨p, c, t, rfl, rfl, -⟩ := Str.exists_of_ascii h hb
    exact Str.isCharBoundary_iff.2 ⟨p, c :: t, rfl, rfl⟩
  · obtain ⟨p, c, t, rfl, rfl, hc⟩ := Str.exists_of_ascii h hb
    refine Str.isCharBoundary_iff.2 ⟨p ++ [c], t, by rw [List.append_assoc]; rfl, ?_⟩
    rw [Str.len_append, len_singleton, hc, List.length_singleton]

/-! ## The buffer of consecutive lines -/

/-- The buffer of the lines, whose pieces are `ps`. -/
structure LineBuffer.Holds (buffer : LineBuffer) (src : Str) (li : LineIndex)
    (lines : List LineSpan) (ps : List Str) : Prop where
  pieces : Pieces src li lines ps
  text_eq : buffer.text = ps.flatten
  starts_eq : buffer.starts = startsOf 0 ps
  sorted : li.lineStarts.Pairwise (· < ·)
  consecutive : ConsecutiveLines src li lines

namespace LineBuffer

/-- A buffer of consecutive lines holds their pieces. -/
theorem new_spec {src : Str} {lines : List LineSpan} (h : Str.len src < 2 ^ 32)
    (hlines : ConsecutiveLines src (LineIndex.new (utf8 src)) lines) :
    ∃ buffer ps, new src (LineIndex.new (utf8 src)) lines = some buffer ∧
      buffer.Holds src (LineIndex.new (utf8 src)) lines ps := by
  obtain ⟨ps, hps⟩ := exists_pieces h hlines
  exact ⟨⟨ps.flatten, startsOf 0 ps⟩, ps, newFrom_spec hps ⟨[], []⟩, hps, rfl, rfl,
    (LineIndex.splitsLines_new h).pairwise.2.2, hlines⟩

namespace Holds

variable {buffer : LineBuffer} {src : Str} {li : LineIndex} {lines : List LineSpan} {ps : List Str}

/-- A piece that is held is its line, with the columns of its tab in front. -/
theorem piece (h : buffer.Holds src li lines ps) {earlier later : List Str} {p : Str}
    (hps : ps = earlier ++ p :: later) :
    ∃ l before line ending after, lines[earlier.length]? = some l ∧
      IsPiece src li l before line ending after ∧ p = List.replicate l.virt ' ' ++ (line ++ ending) ∧
      (later = [] ∨ l.line0 + 1 < li.lineCount) := by
  obtain ⟨l, before, line, ending, after, hl, hp, hpiece, hlater⟩ := Pieces.split (hps ▸ h.pieces)
  refine ⟨l, before, line, ending, after, hl, hp, hpiece, hlater.imp_right fun ⟨l', hl'⟩ => ?_⟩
  have hlt := h.consecutive.lt l' (List.mem_of_getElem? hl')
  obtain ⟨hk, rfl⟩ := List.getElem?_eq_some_iff.1 hl'
  obtain ⟨hk', rfl⟩ := List.getElem?_eq_some_iff.1 hl
  rwa [← List.isChain_iff_getElem.1 h.consecutive.consecutive earlier.length hk]

/-- What is written in the buffer is in a line. -/
theorem exists_line (h : buffer.Holds src li lines ps) {i : Nat}
    (hwritten : Written (utf8 buffer.text) i) :
    ∃ earlier p later l before line ending after j, ps = earlier ++ p :: later ∧
      lines[earlier.length]? = some l ∧ IsPiece src li l before line ending after ∧
      p = List.replicate l.virt ' ' ++ (line ++ ending) ∧
      (later = [] ∨ l.line0 + 1 < li.lineCount) ∧ i = Str.len earlier.flatten + l.virt + j ∧
      j < Str.len line := by
  have hlt : i < Str.len ps.flatten := by
    obtain ⟨b, hb, -⟩ := hwritten
    exact h.text_eq ▸ lt_length hb
  obtain ⟨earlier, p, later, hps, hle, hlt⟩ := exists_piece hlt
  obtain ⟨l, before, line, ending, after, hl, hp, hpiece, hlater⟩ := h.piece hps
  have hin : Written (utf8 p) (i - Str.len earlier.flatten) := by
    rw [h.text_eq, hps] at hwritten
    obtain ⟨b, hb, hspace⟩ := hwritten
    refine ⟨b, ?_, hspace⟩
    rw [← @getElem?_pieces earlier later _ _ (by omega),
      Nat.add_sub_cancel' hle, hb]
  obtain ⟨hvirt, hline⟩ := written_piece hp.isEnding (hpiece ▸ hin)
  exact ⟨earlier, p, later, l, before, line, ending, after,
    i - Str.len earlier.flatten - l.virt, hps, hl, hp, hpiece, hlater, by omega, by omega⟩

/-- An offset next to what is written is in a line, and what follows there is the same in the
    source. -/
theorem exists_place (h : buffer.Holds src li lines ps) {off : Nat}
    (hbeside : Beside (utf8 buffer.text) off) (hcut : Cut (utf8 buffer.text) off) :
    ∃ k l byte, Place src li lines buffer off k l byte ∧ SameChar buffer.text off src byte := by
  have hbuffer : buffer = ⟨ps.flatten, startsOf 0 ps⟩ := by
    rw [← h.text_eq, ← h.starts_eq]
  by_cases hwritten : Written (utf8 buffer.text) off
  · obtain ⟨earlier, p, later, l, before, line, ending, after, j, rfl, hl, hp, hpiece, hlater, hoff,
      hj⟩ := h.exists_line hwritten
    subst hbuffer
    refine ⟨earlier.length, l, l.start + j, place_of_piece hl hp hpiece hlater hj.le hoff
      (fun _ => hj) (fun hnot => absurd hwritten hnot), sameChar_of_piece hp hpiece (fun hnil => ?_)
      hj.le hoff hcut.isCharBoundary⟩
    have := hp.last hnil
    exact hlater.resolve_right (by omega)
  · obtain ⟨i, rfl, hi⟩ := hbeside.resolve_left hwritten
    obtain ⟨earlier, p, later, l, before, line, ending, after, j, rfl, hl, hp, hpiece, hlater, hoff,
      hj⟩ := h.exists_line hi
    subst hbuffer
    refine ⟨earlier.length, l, l.start + (j + 1), place_of_piece hl hp hpiece hlater hj (by omega)
      (fun hw => absurd hw hwritten) (fun _ => by omega), sameChar_of_piece hp hpiece
      (fun hnil => ?_) hj (by omega) hcut.isCharBoundary⟩
    have := hp.last hnil
    exact hlater.resolve_right (by omega)

/-- The end of a line, behind something, is where a piece that is not empty ends. -/
theorem exists_lineEnd (h : buffer.Holds src li lines ps) {off : Nat} (hpos : 0 < off)
    (hend : AtLineEnd (utf8 buffer.text) off) :
    ∃ earlier p later, ps = earlier ++ p :: later ∧ 0 < Str.len p ∧
      off = Str.len earlier.flatten + Str.len p := by
  rw [h.text_eq] at hend
  obtain ⟨i, rfl⟩ := Nat.exists_eq_succ_of_ne_zero hpos.ne'
  have hlt : i < Str.len ps.flatten := by
    rcases hend with hlen | ⟨i', hi', hb | ⟨hb, -⟩⟩
    · rw [Str.len, ← hlen]
      exact Nat.lt_succ_self i
    · exact Nat.succ.inj hi' ▸ lt_length hb
    · exact Nat.succ.inj hi' ▸ lt_length hb
  obtain ⟨earlier, p, later, hps, hle, hlt⟩ := exists_piece hlt
  refine ⟨earlier, p, later, hps, by omega, ?_⟩
  obtain ⟨l, before, line, ending, after, hl, hp, hpiece, hlater⟩ := h.piece hps
  obtain ⟨x, rfl⟩ := Nat.exists_eq_add_of_le hle
  have hx : x < Str.len p := by omega
  have hlen : Str.len p = l.virt + Str.len line + Str.len ending := by
    rw [hpiece, Str.len_append, Str.len_append, len_spaces, Nat.add_assoc]
  rcases hend with htotal | ⟨i, hi, hb⟩
  · rw [hps, List.flatten_append, List.flatten_cons, Str.utf8_append, Str.utf8_append,
      List.length_append, List.length_append, Str.length_utf8, Str.length_utf8] at htotal
    omega
  · -- The byte is in the ending of the piece, and the last one there.
    obtain rfl := Nat.succ.inj hi
    rw [hps] at hb
    have hending : ∀ {b : UInt8}, b = 0x0A ∨ b = 0x0D →
        (utf8 (earlier ++ p :: later).flatten)[Str.len earlier.flatten + x]? = some b →
        ∃ j, x = l.virt + Str.len line + j ∧ (utf8 ending)[j]? = some b := fun hb h => by
      rw [getElem?_pieces hx, hpiece] at h
      exact break_piece hp.plain hb h
    obtain ⟨j, rfl, hj⟩ : ∃ j, x = l.virt + Str.len line + j ∧ ((utf8 ending)[j]? = some 0x0A ∨
        (utf8 ending)[j]? = some 0x0D ∧ (utf8 ending)[j + 1]? ≠ some 0x0A) := by
      rcases hb with hfeed | ⟨hreturn, hnext⟩
      · obtain ⟨j, hj, hb⟩ := hending (Or.inl rfl) hfeed
        exact ⟨j, hj, Or.inl hb⟩
      · obtain ⟨j, rfl, hb⟩ := hending (Or.inr rfl) hreturn
        refine ⟨j, rfl, Or.inr ⟨hb, fun hfeed => hnext ?_⟩⟩
        have hlt := lt_length hfeed
        rw [Str.length_utf8] at hlt
        rw [Nat.succ_eq_add_one, Nat.add_assoc, Nat.add_assoc, getElem?_pieces (by omega), hpiece,
          getElem?_ending, hfeed]
    have := hp.isEnding.last_byte hj
    omega

/-- A line of the source is over before a later one of the paragraph starts. -/
theorem next_le (h : buffer.Holds src li lines ps) {k k' : Nat} {l l' : LineSpan} (hk : k < k')
    (hl : lines[k]? = some l) (hl' : lines[k']? = some l') :
    l.line0 + 1 < li.lineCount ∧ li.lineEndWithBreak l.line0 (Str.len src) ≤ l'.start := by
  have hlt := h.consecutive.lt l' (List.mem_of_getElem? hl')
  have hstart := (h.consecutive.start_le l' (List.mem_of_getElem? hl')).1
  obtain ⟨hk₁, rfl⟩ := List.getElem?_eq_some_iff.1 hl
  obtain ⟨hk₂, rfl⟩ := List.getElem?_eq_some_iff.1 hl'
  have hline : lines[k].line0 < lines[k'].line0 := by
    let Before (l l' : LineSpan) : Prop := l.line0 < l'.line0
    have hchain : lines.IsChain Before := h.consecutive.consecutive.imp fun l l' (h : _ = _) => by
      show l.line0 < l'.line0
      omega
    have : Trans Before Before Before := ⟨fun h h' => Nat.lt_trans h h'⟩
    exact List.pairwise_iff_getElem.1 hchain.pairwise k k' hk₁ hk₂ hk
  rw [LineIndex.lineCount] at hlt ⊢
  refine ⟨by omega, hstart.trans' ?_⟩
  rw [LineIndex.lineEndWithBreak, if_pos (by omega), LineIndex.lineStart, Nat.min_eq_left (by omega),
    List.getD_eq_getElem _ _ (by omega), List.getD_eq_getElem _ _ hlt]
  rcases (Nat.succ_le_of_lt hline).eq_or_lt with hnext | hnext
  · exact (getElem_congr_idx hnext).le
  · exact (List.pairwise_iff_getElem.1 h.sorted _ _ _ _ hnext).le

theorem length_starts (h : buffer.Holds src li lines ps) :
    buffer.starts.length = lines.length + 1 := by
  rw [h.starts_eq, length_startsOf, h.pieces.length_eq]

/-- The starts of a buffer go up. -/
theorem starts_le (h : buffer.Holds src li lines ps) {i j : Nat} (hij : i ≤ j)
    (hj : j ≤ lines.length) : buffer.starts.getD i 0 ≤ buffer.starts.getD j 0 := by
  have hlen := h.length_starts
  rcases hij.eq_or_lt with rfl | hij
  · exact le_rfl
  · rw [List.getD_eq_getElem _ _ (by omega), List.getD_eq_getElem _ _ (by omega)]
    exact List.pairwise_iff_getElem.1 (h.starts_eq ▸ (pairwise_startsOf 0 ps).1) i j _ _ hij

/-- The places of a buffer are in the order of the source. -/
theorem place_lt (h : buffer.Holds src li lines ps) {off off' k k' byte byte' : Nat}
    {l l' : LineSpan} (hplace : Place src li lines buffer off k l byte)
    (hplace' : Place src li lines buffer off' k' l' byte') (hlt : off < off') : byte < byte' := by
  rcases lt_trichotomy k k' with hk | rfl | hk
  · obtain ⟨hmore, hnext⟩ := h.next_le hk hplace.line hplace'.line
    have := hplace.byte_lt hmore
    have := hplace'.le_byte
    omega
  · obtain rfl := Option.some.inj (hplace.line.symm.trans hplace'.line)
    have := hplace.place_eq
    have := hplace'.place_eq
    omega
  · have hstarts := h.starts_le (show k' + 1 ≤ k from hk)
      (List.getElem?_eq_some_iff.1 hplace.line).1.le
    have := hplace.start_le
    have := hplace'.le_next
    omega

/-- Places in the buffer are in the order of the source. -/
theorem place_le (h : buffer.Holds src li lines ps) {off off' k k' byte byte' : Nat}
    {l l' : LineSpan} (hplace : Place src li lines buffer off k l byte)
    (hplace' : Place src li lines buffer off' k' l' byte') (hle : off ≤ off') : byte ≤ byte' := by
  rcases hle.eq_or_lt with rfl | hlt
  · exact (Option.some.inj (hplace.byte_eq.symm.trans hplace'.byte_eq)).le
  · exact (h.place_lt hplace hplace' hlt).le

end Holds

end LineBuffer

/-! ## What is recorded -/

/-- The offset `off` of the buffer is at the byte `byte` of the source, which holds the same
    character. -/
def MapsTo (src : Str) (lines : List LineSpan) (buffer : LineBuffer) (off byte : Nat) : Prop :=
  buffer.byte lines off = some byte ∧ SameChar buffer.text off src byte

/-- The definition `d` of a buffer, whose last line is line `k`, is recorded as `definition`: its
    endpoints are where their characters are in the source, and it ends with the ending of that
    line. -/
structure Records (src : Str) (li : LineIndex) (lines : List LineSpan) (buffer : LineBuffer)
    (d : BufferDefinition) (k : Nat) (definition : Definition) : Prop where
  start : MapsTo src lines buffer d.start definition.start
  label : MapsTo src lines buffer d.label.1 definition.label.1 ∧
    MapsTo src lines buffer d.label.2 definition.label.2
  dest : MapsTo src lines buffer d.dest.1 definition.dest.1 ∧
    MapsTo src lines buffer d.dest.2 definition.dest.2
  start_label : definition.start < definition.label.1
  label_lt : definition.label.1 < definition.label.2
  label_dest : definition.label.2 ≤ definition.dest.1
  dest_le : definition.dest.1 ≤ definition.dest.2
  dest_stop : definition.dest.2 ≤ definition.stop
  begins : ∃ start, buffer.starts[k]? = some start ∧ start < d.stop
  ends : buffer.starts[k + 1]? = some d.stop
  stop : ∃ l, lines[k]? = some l ∧ definition.stop = li.lineEndWithBreak l.line0 (Str.len src)

namespace LineBuffer.Holds

variable {buffer : LineBuffer} {src : Str} {li : LineIndex} {lines : List LineSpan} {ps : List Str}

/-- The last line of a definition. -/
theorem exists_last (h : buffer.Holds src li lines ps) {d : BufferDefinition}
    (hd : d.Of (utf8 buffer.text)) :
    ∃ k l start, lines[k]? = some l ∧ l.start ≤ li.lineEndWithBreak l.line0 (Str.len src) ∧
      buffer.starts[k]? = some start ∧ start < d.stop ∧
      buffer.starts[k + 1]? = some d.stop ∧
      min (partitionPoint (fun s => decide (s < d.stop)) buffer.starts - 1)
        (lines.length - 1) = k := by
  obtain ⟨earlier, p, later, hps, hpos, hstop⟩ :=
    h.exists_lineEnd ((Nat.zero_le _).trans_lt hd.start_lt_stop) hd.atLineEnd
  obtain ⟨l, _, _, _, _, hl, hp, -, -⟩ := h.piece hps
  have hk := (List.getElem?_eq_some_iff.1 hl).1
  have hle := hp.next_eq
  have hnext := getElem?_startsOf 0 (earlier ++ [p]) later
  rw [List.append_assoc, List.singleton_append, List.length_append, List.length_singleton,
    List.flatten_append, Str.len_append, List.flatten_singleton, ← hstop, Nat.zero_add] at hnext
  rw [h.starts_eq, hps]
  refine ⟨earlier.length, l, _, hl, by omega, getElem?_startsOf 0 earlier (p :: later), by omega,
    hnext, ?_⟩
  rw [partitionPoint_startsOf (fun m hm => by rw [decide_eq_true_eq]; omega),
    partitionPoint_of_not _ (by rw [decide_eq_false_iff_not]; omega)]
  omega

/-- The end of what is written at the end of a line is the end of the buffer. -/
theorem not_written_of_atLineEnd {s : List UInt8} {off : Nat} (hbehind : BehindWritten s off)
    (hend : AtLineEnd s off) : ¬Written s off := by
  obtain ⟨i, rfl, b, hb, hspace⟩ := hbehind
  rcases hend with hlen | ⟨i', hi, hbreak⟩
  · rintro ⟨b', hb', -⟩
    exact absurd (lt_length hb') (by omega)
  · obtain rfl := Nat.succ.inj hi
    rw [hb] at hbreak
    rcases hbreak with hfeed | ⟨hreturn, -⟩
    · rw [Option.some.inj hfeed] at hspace
      cases hspace
    · rw [Option.some.inj hreturn] at hspace
      cases hspace

/-- A definition of the buffer is recorded. -/
theorem recordDefinition_spec (h : buffer.Holds src li lines ps) {d : BufferDefinition}
    (hd : d.Of (utf8 buffer.text)) :
    ∃ definition k, recordDefinition src li lines buffer d = some (definition, k + 1) ∧
      Records src li lines buffer d k definition := by
  have hbeside := hd.beside
  simp only [List.mem_cons, List.not_mem_nil, or_false, forall_eq_or_imp, forall_eq] at hbeside
  obtain ⟨⟨hl₁, hl₁'⟩, ⟨hl₂, hl₂'⟩, ⟨hd₁, hd₁'⟩, hd₂, hd₂'⟩ := hbeside
  -- The five offsets of the definition each have a place, on a line of their own.
  obtain ⟨k₀, l₀, start, hstart, hsame⟩ := h.exists_place
    (Or.inl ⟨_, hd.opening, rfl⟩) (Cut.at hd.opening (by decide))
  obtain ⟨k₁, l₁, labelStart, hlabel, hsame₁⟩ := h.exists_place hl₁ hl₁'
  obtain ⟨k₂, l₂, labelStop, hlabel', hsame₂⟩ := h.exists_place hl₂ hl₂'
  obtain ⟨k₃, l₃, destStart, hdest, hsame₃⟩ := h.exists_place hd₁ hd₁'
  obtain ⟨k₄, l₄, destStop, hdest', hsame₄⟩ := h.exists_place hd₂ hd₂'
  obtain ⟨k, l, begins, hl, hstop, hbegins, hbegins', hends, hk⟩ := h.exists_last hd
  refine ⟨⟨start, li.lineEndWithBreak l.line0 (Str.len src), (labelStart, labelStop),
    (destStart, destStop)⟩, k, ?_, ⟨hstart.byte_eq, hsame⟩,
    ⟨⟨hlabel.byte_eq, hsame₁⟩, hlabel'.byte_eq, hsame₂⟩,
    ⟨⟨hdest.byte_eq, hsame₃⟩, hdest'.byte_eq, hsame₄⟩, h.place_lt hstart hlabel hd.start_label,
    h.place_lt hlabel hlabel' hd.label_lt, h.place_le hlabel' hdest hd.label_dest,
    h.place_le hdest hdest' hd.dest_le, ?_,
    ⟨begins, hbegins, hbegins'⟩, hends, l, hl, rfl⟩
  · rw [recordDefinition]
    rw [hk, hstart.byte_eq, hl, hlabel.byte_eq, hlabel'.byte_eq, hdest.byte_eq, hdest'.byte_eq]
    rfl
  · -- The line of the destination's end is the last line or an earlier one.
    have hlt : k₄ < lines.length := (List.getElem?_eq_some_iff.1 hdest'.line).1
    have hle : k₄ ≤ k := by
      by_contra hlater
      have hstarts := h.starts_le (show k + 1 ≤ k₄ by omega) hlt.le
      rw [List.getD_eq_getElem?_getD, hends, Option.getD_some] at hstarts
      have heq : d.dest.2 = d.stop :=
        le_antisymm hd.dest_stop (hstarts.trans hdest'.start_le)
      have := hdest'.start_lt
        (not_written_of_atLineEnd (hd.dest_behind heq) (heq ▸ hd.atLineEnd))
      omega
    rcases hle.eq_or_lt with rfl | hlt
    · exact Option.some.inj (hdest'.line.symm.trans hl) ▸ hdest'.byte_le
    · exact hdest'.byte_le.trans ((h.next_le hlt hdest'.line hl).2.trans hstop)

/-- A definition is recorded behind the one before it. -/
theorem stop_le_start (h : buffer.Holds src li lines ps) {d d' : BufferDefinition} {k k' : Nat}
    {definition definition' : Definition} (hnext : d'.start = d.stop)
    (hd' : d'.Of (utf8 buffer.text)) (hrecords : Records src li lines buffer d k definition)
    (hrecords' : Records src li lines buffer d' k' definition') :
    definition.stop ≤ definition'.start := by
  have hwritten : Written (utf8 buffer.text) d'.start := ⟨_, hd'.opening, rfl⟩
  obtain ⟨j, l', byte, hplace, -⟩ := h.exists_place (Or.inl hwritten)
    (Cut.at hd'.opening (by decide))
  obtain ⟨l, hl, hstop⟩ := hrecords.stop
  have hk := (List.getElem?_eq_some_iff.1 hl).1
  have hlt := hplace.lt_next hwritten
  obtain rfl := Option.some.inj (hplace.byte_eq.symm.trans hrecords'.start.1)
  have hj : k < j := by
    by_contra hj
    have hstarts := h.starts_le (show j + 1 ≤ k + 1 by omega) hk
    have hends : buffer.starts.getD (k + 1) 0 = d.stop := by
      rw [List.getD_eq_getElem?_getD, hrecords.ends, Option.getD_some]
    omega
  rw [hstop]
  exact (h.next_le hj hl hplace.line).2.trans hplace.le_byte

/-- The definitions are recorded one behind the other, up to the last line of the last one. -/
theorem recordDefinitions_spec (h : buffer.Holds src li lines ps) {defs : List BufferDefinition}
    {pos : Nat} (hdefs : ∀ d ∈ defs, d.Of (utf8 buffer.text)) (hconsecutive : Consecutive pos defs)
    (out : List Definition) (consumed : Nat) :
    ∃ definitions consumed', recordDefinitions src li lines buffer defs out consumed =
        some (out ++ definitions, consumed') ∧
      List.Forall₂ (fun d definition => ∃ k, Records src li lines buffer d k definition) defs
        definitions ∧
      definitions.IsChain (fun definition definition' => definition.stop ≤ definition'.start) ∧
      (defs = [] → consumed' = consumed) ∧
      ∀ d ∈ defs.getLast?, ∃ k definition, consumed' = k + 1 ∧
        Records src li lines buffer d k definition := by
  -- By induction on the definitions: what is recorded of the first stops where the next one starts,
  -- or before.
  induction defs generalizing pos out consumed with
  | nil =>
    exact ⟨[], consumed, by rw [List.append_nil]; rfl, List.Forall₂.nil, List.IsChain.nil,
      fun _ => rfl, fun d hd => absurd hd (Option.not_mem_none d)⟩
  | cons d defs ih =>
    rw [List.forall_mem_cons] at hdefs
    obtain ⟨definition, k, hrecord, hrecords⟩ := h.recordDefinition_spec hdefs.1
    obtain ⟨definitions, consumed', hloop, hall, hchain, hnil, hlast⟩ :=
      ih hdefs.2 hconsecutive.2 (out ++ [definition]) (k + 1)
    refine ⟨definition :: definitions, consumed', ?_, List.Forall₂.cons ⟨k, hrecords⟩ hall, ?_,
      fun h => absurd h (List.cons_ne_nil d defs), ?_⟩
    · rw [recordDefinitions, hrecord, Option.bind_eq_bind, Option.bind_some]
      dsimp only
      rw [hloop, List.append_assoc]
      rfl
    · cases hall with
      | nil => exact List.IsChain.singleton definition
      | @cons d' definition' defs definitions hrecords' hall =>
        obtain ⟨k', hrecords'⟩ := hrecords'
        exact List.isChain_cons_cons.2 ⟨h.stop_le_start hconsecutive.2.1
          (hdefs.2 d' List.mem_cons_self) hrecords hrecords', hchain⟩
    · cases defs with
      | nil =>
        intro d' hd'
        obtain rfl := Option.some.inj hd'
        exact ⟨k, definition, hnil rfl, hrecords⟩
      | cons d' defs => exact hlast

/-- The lines consumed are those that start before the end of the last definition. -/
theorem lt_consumed_iff (h : buffer.Holds src li lines ps) {d : BufferDefinition} {k : Nat}
    {definition : Definition} (hrecords : Records src li lines buffer d k definition) {i start : Nat}
    (hi : buffer.starts[i]? = some start) : i < k + 1 ↔ start < d.stop := by
  obtain ⟨begins, hbegins, hlt⟩ := hrecords.begins
  have hsorted : ∀ {i j a b : Nat}, i ≤ j → buffer.starts[i]? = some a →
      buffer.starts[j]? = some b → a ≤ b := fun {i j a b} hij ha hb => by
    have hj := (List.getElem?_eq_some_iff.1 hb).1
    have hlen := h.length_starts
    have := h.starts_le hij (by omega)
    rwa [List.getD_eq_getElem?_getD, List.getD_eq_getElem?_getD, ha, hb] at this
  constructor
  · intro hik
    exact (hsorted (Nat.le_of_lt_succ hik) hi hbegins).trans_lt hlt
  · intro hstart
    by_contra hik
    have := hsorted (not_lt.1 hik) hrecords.ends hi
    omega

/-- Every offset is in a line, the last one if it is past the end. -/
theorem exists_byte (h : buffer.Holds src li lines ps) (hne : lines ≠ []) (off : Nat) :
    ∃ byte, buffer.byte lines off = some byte := by
  have hbuffer : buffer = ⟨ps.flatten, startsOf 0 ps⟩ := by
    rw [← h.text_eq, ← h.starts_eq]
  have hps : ps ≠ [] := fun hnil => hne (by
    have := h.pieces.length_eq
    rw [hnil] at this
    exact List.length_eq_zero_iff.1 this)
  obtain ⟨earlier, p, later, hsplit, hle, hlt⟩ : ∃ earlier p later, ps = earlier ++ p :: later ∧
      Str.len earlier.flatten ≤ off ∧
        (off < Str.len earlier.flatten + Str.len p ∨ later = []) := by
    by_cases hoff : off < Str.len ps.flatten
    · obtain ⟨earlier, p, later, hsplit, hle, hlt⟩ := exists_piece hoff
      exact ⟨earlier, p, later, hsplit, hle, Or.inl hlt⟩
    · have hsplit := (List.dropLast_append_getLast hps).symm
      refine ⟨ps.dropLast, ps.getLast hps, [], hsplit, ?_, Or.inr rfl⟩
      rw [hsplit, List.flatten_append, Str.len_append] at hoff
      omega
  obtain ⟨l, _, _, _, _, hl, -⟩ := h.piece hsplit
  subst hbuffer hsplit
  exact ⟨_, byte_of_piece hl hle hlt⟩

/-- The rest of the lines is looked at without a panic. -/
theorem definitionGap_spec (h : buffer.Holds src li lines ps) (hne : lines ≠ [])
    {defs : List BufferDefinition} (hdefs : ∀ d ∈ defs, d.Of (utf8 buffer.text))
    {checkbox : Option (Nat × Nat)} (hcheckbox : ∀ c ∈ checkbox, c.2 ≤ Str.len src) :
    ∃ gap, definitionGap src lines buffer defs checkbox = some gap := by
  have hcut : Str.isCharBoundary buffer.text
      (min ((defs.getLast?.map BufferDefinition.stop).getD 0) (Str.len buffer.text)) = true := by
    cases hlast : defs.getLast? with
    | none => exact Str.isCharBoundary_zero _
    | some d =>
      have hd := hdefs d (List.mem_of_getLast? hlast)
      have hle : d.stop ≤ Str.len buffer.text := hd.stop_le
      rw [Option.map_some, Option.getD_some, Nat.min_eq_left hle]
      exact hd.atLineEnd.cut.isCharBoundary
  obtain ⟨rest, hrest⟩ := Str.exists_sliceFrom hcut
  have hfound : ∀ off left, ∃ found, isCheckbox src lines buffer checkbox off left = some found := by
    intro off left
    cases checkbox with
    | none => exact ⟨false, rfl⟩
    | some c =>
      obtain ⟨byte, hbyte⟩ := h.exists_byte hne off
      rw [isCheckbox]
      by_cases hfeed : left.contains '\n' = true
      · exact ⟨false, by rw [if_pos hfeed]⟩
      · rw [if_neg hfeed, hbyte, Option.bind_eq_bind, Option.bind_some]
        by_cases hat : byte = c.1 ∧ byte + Str.len left ≤ c.2
        · have hlen := hcheckbox c rfl
          rw [Str.len] at hlen
          rw [if_pos hat, sliceFrom, if_pos (hat.2.trans hlen), Option.bind_eq_bind, Option.bind_some,
            if_pos hlen]
          exact ⟨_, rfl⟩
        · exact ⟨false, by rw [if_neg hat]; rfl⟩
  obtain ⟨found, hfound⟩ := hfound
    ((defs.getLast?.map BufferDefinition.stop).getD 0 +
      (Str.len rest - Str.len (rest.dropWhile isBlank)))
    ((rest.dropWhile isBlank).rdropWhile isBlank)
  rw [definitionGap]
  dsimp only
  rw [hrest, Option.bind_eq_bind, Option.bind_some, hfound]
  exact ⟨_, rfl⟩

end LineBuffer.Holds

/-- The definitions of a buffer of consecutive lines are found, one behind the other, without a
    panic, and each ends with a line of the buffer. They are recorded where their characters are in
    the source, with the lines they cover. -/
theorem definitions_cover_lines {src : Str} {lines : List LineSpan} (hsrc : Str.len src < 2 ^ 32)
    (hlines : ConsecutiveLines src (LineIndex.new (utf8 src)) lines) :
    ∃ buffer defs, LineBuffer.new src (LineIndex.new (utf8 src)) lines = some buffer ∧
      paragraphDefinitions buffer.text = some defs ∧ Consecutive 0 defs ∧
      (∀ d ∈ defs, (utf8 buffer.text)[d.start]? = some 0x5B ∧ d.start < d.label.1 ∧
        d.label.1 < d.label.2 ∧ d.label.2 ≤ d.dest.1 ∧ d.dest.1 ≤ d.dest.2 ∧ d.dest.2 ≤ d.stop ∧
        ∃ k < lines.length, buffer.starts[k + 1]? = some d.stop) ∧
      ∀ exact checkbox, defs ≠ [] → (∀ c ∈ checkbox, c.2 ≤ Str.len src) →
        ∃ definitions gap consumedLines last,
          recordBufferDefinitions src (LineIndex.new (utf8 src)) lines buffer defs exact checkbox =
            some (definitions, gap, consumedLines) ∧
          List.Forall₂ (fun d definition =>
            ∃ k, Records src (LineIndex.new (utf8 src)) lines buffer d k definition) defs definitions ∧
          definitions.IsChain (fun definition definition' => definition.stop ≤ definition'.start) ∧
          defs.getLast? = some last ∧ buffer.starts[consumedLines]? = some last.stop ∧
          ∀ i start, buffer.starts[i]? = some start → (i < consumedLines ↔ start < last.stop) := by
  obtain ⟨buffer, ps, hbuffer, hholds⟩ := LineBuffer.new_spec hsrc hlines
  obtain ⟨defs, hdefs, hconsecutive, hof⟩ := paragraphDefinitions_spec buffer.text
  refine ⟨buffer, defs, hbuffer, hdefs, hconsecutive, fun d hd => ?_,
    fun exact checkbox hne hbox => ?_⟩
  · obtain ⟨k, l, start, hl, -, -, -, hends, -⟩ := hholds.exists_last (hof d hd)
    exact ⟨(hof d hd).opening, (hof d hd).start_label, (hof d hd).label_lt, (hof d hd).label_dest,
      (hof d hd).dest_le, (hof d hd).dest_stop, k, (List.getElem?_eq_some_iff.1 hl).1, hends⟩
  · obtain ⟨definitions, consumed, hloop, hall, hchain, -, hlast⟩ :=
      hholds.recordDefinitions_spec hof hconsecutive [] 0
    have hsome := List.getLast?_eq_some_getLast hne
    obtain ⟨k, definition, rfl, hrecords⟩ := hlast _ hsome
    -- There is a line, as the last definition ends with one.
    have hlinesne : lines ≠ [] := fun hnil => by
      obtain ⟨l, hl, -⟩ := hrecords.stop
      rw [hnil] at hl
      cases hl
    obtain ⟨gap, hgap⟩ : ∃ gap, (if exact then definitionGap src lines buffer defs checkbox
        else some none) = some gap := by
      cases exact with
      | false => exact ⟨none, rfl⟩
      | true => exact hholds.definitionGap_spec hlinesne hof hbox
    refine ⟨definitions, gap, k + 1, defs.getLast hne, ?_, hall, hchain, hsome, hrecords.ends,
      fun i start hi => hholds.lt_consumed_iff hrecords hi⟩
    rw [recordBufferDefinitions, hloop, Option.bind_eq_bind, Option.bind_some, List.nil_append]
    dsimp only
    rw [hgap]
    rfl

/-- A definition in a quote, and text behind it that is no title. -/
theorem definitions_cover_lines_quote :
    ∃ buffer, LineBuffer.new "> [a]: /u\r\n> 'x' y".toList
        (LineIndex.new (utf8 "> [a]: /u\r\n> 'x' y".toList)) [⟨0, 2, 0⟩, ⟨1, 13, 0⟩] = some buffer ∧
      paragraphDefinitions buffer.text = some [⟨0, 9, (1, 2), (5, 7)⟩] ∧
      recordBufferDefinitions "> [a]: /u\r\n> 'x' y".toList
        (LineIndex.new (utf8 "> [a]: /u\r\n> 'x' y".toList)) [⟨0, 2, 0⟩, ⟨1, 13, 0⟩] buffer
        [⟨0, 9, (1, 2), (5, 7)⟩] false none = some ([⟨2, 11, (3, 4), (7, 9)⟩], none, 1) ∧
      buffer.starts[1]? = some 9 ∧
      ∀ i start, buffer.starts[i]? = some start → (i < 1 ↔ start < 9) := by
  obtain ⟨buffer, defs, hbuffer, hdefs, -, -, hrecord⟩ :=
    @definitions_cover_lines "> [a]: /u\r\n> 'x' y".toList [⟨0, 2, 0⟩, ⟨1, 13, 0⟩] (by decide)
      ⟨by decide, by decide, by decide, by decide⟩
  have hnew : LineBuffer.new "> [a]: /u\r\n> 'x' y".toList
      (LineIndex.new (utf8 "> [a]: /u\r\n> 'x' y".toList)) [⟨0, 2, 0⟩, ⟨1, 13, 0⟩] =
        some ⟨"[a]: /u\r\n'x' y".toList, [0, 9, 14]⟩ := by decide
  obtain rfl := Option.some.inj (hnew.symm.trans hbuffer)
  have hfound : paragraphDefinitions "[a]: /u\r\n'x' y".toList = some [⟨0, 9, (1, 2), (5, 7)⟩] := by
    decide +kernel
  obtain rfl := Option.some.inj (hfound.symm.trans hdefs)
  obtain ⟨definitions, gap, consumed, last, hrecords, -, -, hlast, hstarts, hcovered⟩ :=
    hrecord false none (List.cons_ne_nil _ _) (fun c hc => absurd hc (Option.not_mem_none c))
  obtain rfl := Option.some.inj hlast
  have hvalue : recordBufferDefinitions "> [a]: /u\r\n> 'x' y".toList
      (LineIndex.new (utf8 "> [a]: /u\r\n> 'x' y".toList)) [⟨0, 2, 0⟩, ⟨1, 13, 0⟩]
      ⟨"[a]: /u\r\n'x' y".toList, [0, 9, 14]⟩ [⟨0, 9, (1, 2), (5, 7)⟩] false none =
        some ([⟨2, 11, (3, 4), (7, 9)⟩], none, 1) := by decide
  have hsame := Option.some.inj (hvalue.symm.trans hrecords)
  rw [Prod.mk.injEq, Prod.mk.injEq] at hsame
  obtain ⟨-, -, rfl⟩ := hsame
  exact ⟨_, hnew, hfound, hvalue, hstarts, hcovered⟩

end Flark.Native
