import Flark.Native.Str

/-!
# Reference definitions

The link reference definitions at the start of a paragraph's buffer (`reference_definitions.rs`).
The scanners read bytes; `none` is a panic, an index or a slice that is not there, and a scanner
that finds nothing returns `some none`.

* `scanLinkTitle_spec`: a title is the longest prefix that their grammar has;
* `parseReferenceInline_spec`: one definition, with its endpoints in order and its end at the end
  of a line;
* `paragraphDefinitions_spec`: all of them, one behind the other from the start of the buffer.
-/

namespace Flark.Native

/-- `BufferDefinition`: offsets into a paragraph's buffer. -/
structure BufferDefinition where
  start : Nat
  stop : Nat
  label : Nat × Nat
  dest : Nat × Nat
  deriving DecidableEq, Repr

def maxLinkLabelLength : Nat := 1000

/-- `is_ascii_punctuation`. -/
def ispunct (b : UInt8) : Bool :=
  decide (0x21 ≤ b ∧ b ≤ 0x2F ∨ 0x3A ≤ b ∧ b ≤ 0x40 ∨ 0x5B ≤ b ∧ b ≤ 0x60 ∨ 0x7B ≤ b ∧ b ≤ 0x7E)

def isspace (b : UInt8) : Bool := b == 0x20 || b == 0x09 || b == 0x0A || b == 0x0D

/-- `is_ascii_control`. -/
def isAsciiControl (b : UInt8) : Bool := decide (b < 0x20 ∨ b = 0x7F)

/-! ## The scanner -/

namespace Sc

variable (s : List UInt8)

def peek (pos : Nat) : Option UInt8 := s[pos]?

/-- The loop of `skip_spaces`, over what is left. -/
def skipSpacesFrom : List UInt8 → (pos : Nat) → Nat
  | [], pos => pos
  | b :: rest, pos => if b = 0x20 ∨ b = 0x09 then skipSpacesFrom rest (pos + 1) else pos

def skipSpaces (pos : Nat) : Nat := skipSpacesFrom (s.drop pos) pos

def skipLineEnd (old : Nat) : Nat × Bool :=
  let pos := if peek s old = some 0x0D then old + 1 else old
  let pos := if peek s pos = some 0x0A then pos + 1 else pos
  (pos, decide (old < pos) || decide (s.length ≤ pos))

def spnl (pos : Nat) : Nat :=
  let pos := skipSpaces s pos
  let (pos, ended) := skipLineEnd s pos
  if ended then skipSpaces s pos else pos

/-- `while a < z && isspace(s[a]) { a += 1; }`, in as many turns as there are bytes up to `z`. -/
def trimStart : (turns : Nat) → (a : Nat) → Option Nat
  | 0, a => some a
  | turns + 1, a => do
    let b ← s[a]?
    if isspace b then trimStart turns (a + 1) else return a

/-- `while z > a && isspace(s[z - 1]) { z -= 1; }`, in as many turns as there are bytes from `a`. -/
def trimEnd : (turns : Nat) → (z : Nat) → Option Nat
  | 0, z => some z
  | turns + 1, z => do
    let b ← s[z - 1]?
    if isspace b then trimEnd turns (z - 1) else return z

/-- The label behind the bracket at `start`, where the one that closes it is at `pos`: its range,
    and what is read. -/
def closeLabel (start pos : Nat) : Option ((Nat × Nat) × Nat) := do
  let a ← trimStart s (pos - (start + 1)) (start + 1)
  let z ← trimEnd s (pos - a) pos
  return ((a, z), pos + 1)

/-- The loop of `link_label`, over what is left. -/
def linkLabelFrom (start : Nat) :
    List UInt8 → (pos length : Nat) → Option (Option ((Nat × Nat) × Nat))
  | [], _, _ => some none
  | b :: rest, pos, length =>
    if b = 0x5D then (closeLabel s start pos).map some
    else if b = 0x5B then some none
    else if b = 0x5C then
      match rest with
      | p :: rest' =>
        if ispunct p then
          if maxLinkLabelLength < length + 2 then some none
          else linkLabelFrom start rest' (pos + 2) (length + 2)
        else if maxLinkLabelLength < length + 1 then some none
        else linkLabelFrom start (p :: rest') (pos + 1) (length + 1)
      | [] => some none
    else if maxLinkLabelLength < length + 1 then some none
    else linkLabelFrom start rest (pos + 1) (length + 1)

/-- `link_label`: the trimmed range of the label, and the position behind it. -/
def linkLabel (start : Nat) : Option (Option ((Nat × Nat) × Nat)) :=
  if peek s start = some 0x5B then linkLabelFrom s start (s.drop (start + 1)) (start + 1) 0
  else some none

end Sc

/-! ## Destinations and titles -/

/-- The loop over a destination in angle brackets, over what is left: the index it ends with, or
    none where it returns. -/
def angleFrom : List UInt8 → (i : Nat) → Option Nat
  | [], i => some i
  | b :: rest, i =>
    if b = 0x3E then some (i + 1)
    else if b = 0x5C then
      match rest with
      | _ :: rest' => angleFrom rest' (i + 2)
      | [] => some (i + 2)
    else if b = 0x0A ∨ b = 0x0D ∨ b = 0x3C then none
    else angleFrom rest (i + 1)

/-- The loop over a destination without brackets, over what is left: the index and the open
    parentheses it ends with, or none where it returns. -/
def bareFrom : List UInt8 → (i parens : Nat) → Option (Nat × Nat)
  | [], i, parens => some (i, parens)
  | b :: rest, i, parens =>
    if b = 0x5C then
      match rest with
      | p :: rest' =>
        if ispunct p then bareFrom rest' (i + 2) parens else bareFrom (p :: rest') (i + 1) parens
      | [] => some (i + 1, parens)
    else if b = 0x28 then if 32 < parens + 1 then none else bareFrom rest (i + 1) (parens + 1)
    else if b = 0x29 then if parens = 0 then some (i, parens) else bareFrom rest (i + 1) (parens - 1)
    else if isspace b || isAsciiControl b && b != 0 then if i = 0 then none else some (i, parens)
    else bareFrom rest (i + 1) parens

/-- `scan_link_url`: where the destination starts and ends, and what is read. -/
def scanLinkUrl (s : List UInt8) : Option (Nat × Nat × Nat) :=
  if s.head? = some 0x3C then do
    let i ← angleFrom (s.drop 1) 1
    if s.length ≤ i ∨ i < 2 ∨ s[i - 1]? ≠ some 0x3E then none else return (1, i - 1, i)
  else do
    let (i, parens) ← bareFrom s 0 0
    if s.length = 0 ∨ parens ≠ 0 then none else return (0, i, i)

/-- The loop of `scan_link_title`, over what is left: `here` and `next` say whether the byte at `i`
    and the one after it can be reached. -/
def titleFrom (opening closing : UInt8) :
    List UInt8 → (i : Nat) → (here next : Bool) → (best : Option Nat) → Option Nat
  | [], _, _, _, best => best
  | b :: rest, i, here, next, best =>
    if here || next then
      let after := here && b == 0x5C && rest.head?.any ispunct
      let next := next || here && b != closing && !(opening == 0x28 && b == 0x28)
      titleFrom opening closing rest (i + 1) next after
        (if here && b == closing then some (i + 1) else best)
    else best

/-- What closes a title. -/
def titleClose (opening : UInt8) : Option UInt8 :=
  if opening = 0x22 then some 0x22
  else if opening = 0x27 then some 0x27
  else if opening = 0x28 then some 0x29
  else none

/-- `scan_link_title`: the length of the title. -/
def scanLinkTitle (s : List UInt8) : Option Nat := do
  let opening ← s.head?
  let closing ← titleClose opening
  titleFrom opening closing (s.drop 1) 1 true false none

/-! ## Definitions -/

/-- The end of `parse_reference_inline`, behind the destination: where the definition ends. -/
def definitionEnd (s : List UInt8) (beforeTitle : Nat) : Option (Option Nat) := do
  let pos := Sc.spnl s beforeTitle
  let title ← (if pos = beforeTitle then some none else (sliceFrom s pos).map scanLinkTitle)
  let (stop, ended) := Sc.skipLineEnd s (Sc.skipSpaces s (title.elim beforeTitle (pos + ·)))
  if ended then return some stop
  if title.isNone then return none
  let (stop, ended) := Sc.skipLineEnd s (Sc.skipSpaces s beforeTitle)
  if ended then return some stop else return none

/-- `parse_reference_inline`: what the definition takes, its label and its destination. -/
def parseReferenceInline (content : Str) : Option (Option (Nat × (Nat × Nat) × (Nat × Nat))) := do
  let s := utf8 content
  let some (label, pos) ← Sc.linkLabel s 0 | return none
  if label.1 = label.2 then return none
  if Sc.peek s pos ≠ some 0x3A then return none
  let pos := Sc.spnl s (pos + 1)
  let some (start, stop, read) := scanLinkUrl (← sliceFrom s pos) | return none
  let some length ← definitionEnd s (pos + read) | return none
  return some (length, label, (pos + start, pos + stop))

/-- The loop of `paragraph_definitions`. A definition takes a byte at least, so the bytes bound the
    turns. -/
def definitionsFrom (buffer : Str) :
    (turns : Nat) → (pos : Nat) → (out : List BufferDefinition) → Option (List BufferDefinition)
  | 0, _, _ => none
  | turns + 1, pos, out =>
    -- The first text that is no definition ends them.
    if (utf8 buffer)[pos]? = some 0x5B then do
      match ← parseReferenceInline (← Str.sliceFrom buffer pos) with
      | some (length, label, dest) =>
        definitionsFrom buffer turns (pos + length) (out ++ [
          { start := pos
            stop := pos + length
            label := (pos + label.1, pos + label.2)
            dest := (pos + dest.1, pos + dest.2) }])
      | none => return out
    else some out

/-- `paragraph_definitions`. -/
def paragraphDefinitions (buffer : Str) : Option (List BufferDefinition) :=
  definitionsFrom buffer (Str.len buffer + 1) 0 []

/-! ## Places in the bytes -/

/-- A byte that is not blank is at `i`. -/
def Written (s : List UInt8) (i : Nat) : Prop := ∃ b, s[i]? = some b ∧ isspace b = false

/-- A byte that is not blank ends at `off`. -/
def BehindWritten (s : List UInt8) (off : Nat) : Prop := ∃ i, off = i + 1 ∧ Written s i

/-- The offset is at a byte that is not blank, or where one ends. -/
def Beside (s : List UInt8) (off : Nat) : Prop := Written s off ∨ BehindWritten s off

/-- The offset is behind a line ending, the whole of it, or at the end of the bytes. -/
def AtLineEnd (s : List UInt8) (off : Nat) : Prop :=
  off = s.length ∨
    ∃ i, off = i + 1 ∧ (s[i]? = some 0x0A ∨ s[i]? = some 0x0D ∧ s[off]? ≠ some 0x0A)

/-- The offset is next to an ASCII byte, or at the end. -/
def Cut (s : List UInt8) (off : Nat) : Prop :=
  off = s.length ∨
    ∃ b : UInt8, b.toNat < 0x80 ∧ (s[off]? = some b ∨ ∃ i, off = i + 1 ∧ s[i]? = some b)

variable {s : List UInt8}

/-- In front of ASCII the text can be cut. -/
theorem Cut.at {off : Nat} {b : UInt8} (h : s[off]? = some b) (hb : b.toNat < 0x80) : Cut s off :=
  Or.inr ⟨b, hb, Or.inl h⟩

/-- Behind ASCII the text can be cut. -/
theorem Cut.behind {i : Nat} {b : UInt8} (h : s[i]? = some b) (hb : b.toNat < 0x80) :
    Cut s (i + 1) :=
  Or.inr ⟨b, hb, Or.inr ⟨i, rfl, h⟩⟩

/-- White space is ASCII. -/
theorem ascii_of_isspace {b : UInt8} (h : isspace b = true) : b.toNat < 0x80 := by
  simp only [isspace, Bool.or_eq_true, beq_iff_eq] at h
  rcases h with ((rfl | rfl) | rfl) | rfl
  all_goals decide

theorem lt_length {i : Nat} {b : UInt8} (h : s[i]? = some b) : i < s.length :=
  (List.getElem?_eq_some_iff.1 h).1

theorem drop_of_cons {b : UInt8} {rest : List UInt8} {i : Nat} (h : b :: rest = s.drop i) :
    rest = s.drop (i + 1) := by
  rw [← List.tail_drop, ← h, List.tail_cons]

theorem getElem?_of_cons {b : UInt8} {rest : List UInt8} {i : Nat} (h : b :: rest = s.drop i) :
    s[i]? = some b := by
  rw [← List.head?_drop, ← h, List.head?_cons]

/-- A place behind a front is written where it is in the rest. -/
theorem Written.drop {p i : Nat} (h : Written (s.drop p) i) : Written s (p + i) := by
  obtain ⟨b, hb, hspace⟩ := h
  exact ⟨b, List.getElem?_drop ▸ hb, hspace⟩

theorem BehindWritten.drop {p off : Nat} (h : BehindWritten (s.drop p) off) :
    BehindWritten s (p + off) := by
  obtain ⟨i, rfl, hi⟩ := h
  exact ⟨p + i, rfl, hi.drop⟩

theorem Beside.drop {p off : Nat} (h : Beside (s.drop p) off) : Beside s (p + off) :=
  h.imp Written.drop BehindWritten.drop

/-- A place where the rest can be cut is one where the text can. -/
theorem Cut.drop {p off : Nat} (hp : p ≤ s.length) (h : Cut (s.drop p) off) : Cut s (p + off) := by
  rcases h with rfl | ⟨b, hb, h | ⟨i, rfl, h⟩⟩
  · left
    rw [List.length_drop]
    omega
  · exact Cut.at (List.getElem?_drop ▸ h) hb
  · exact Cut.behind (List.getElem?_drop ▸ h) hb

/-- A place at a line's end of the rest is at one of the text. -/
theorem AtLineEnd.drop {p off : Nat} (hp : p ≤ s.length) (h : AtLineEnd (s.drop p) off) :
    AtLineEnd s (p + off) := by
  rcases h with rfl | ⟨i, rfl, hi⟩
  · left
    rw [List.length_drop]
    omega
  · right
    rw [List.getElem?_drop, List.getElem?_drop] at hi
    exact ⟨p + i, rfl, hi⟩

/-! ## The scanner's moves -/

namespace Sc

/-- Skipping spaces goes forward, to where the text can be cut if it could be before. -/
theorem skipSpacesFrom_spec {rest : List UInt8} {pos : Nat} (h : rest = s.drop pos) :
    pos ≤ skipSpacesFrom rest pos ∧ skipSpacesFrom rest pos ≤ pos + rest.length ∧
      (Cut s pos → Cut s (skipSpacesFrom rest pos)) := by
  induction rest generalizing pos with
  | nil => exact ⟨le_rfl, le_rfl, id⟩
  | cons b rest ih =>
    rw [skipSpacesFrom, List.length_cons]
    split_ifs with hblank
    · obtain ⟨hle, hlen, hcut⟩ := ih (drop_of_cons h)
      refine ⟨by omega, by omega, fun _ => hcut (Cut.behind (getElem?_of_cons h) ?_)⟩
      rcases hblank with rfl | rfl
      all_goals decide
    · exact ⟨le_rfl, Nat.le_add_right _ _, id⟩

/-- Skipping spaces goes forward and stays in the text. -/
theorem skipSpaces_spec {pos : Nat} (h : pos ≤ s.length) :
    pos ≤ skipSpaces s pos ∧ skipSpaces s pos ≤ s.length ∧
      (Cut s pos → Cut s (skipSpaces s pos)) := by
  obtain ⟨hle, hlen, hcut⟩ := @skipSpacesFrom_spec s _ pos rfl
  rw [List.length_drop] at hlen
  exact ⟨hle, by rw [skipSpaces]; omega, hcut⟩

/-- No line ending, a line feed, a carriage return, or both: what is behind it is at a line end. -/
theorem skipLineEnd_spec {old pos : Nat} {ended : Bool} (hold : old ≤ s.length)
    (h : skipLineEnd s old = (pos, ended)) :
    old ≤ pos ∧ pos ≤ s.length ∧ (ended = true → AtLineEnd s pos) ∧ (Cut s old → Cut s pos) := by
  rw [skipLineEnd, Prod.mk.injEq] at h
  obtain ⟨hpos, rfl⟩ := h
  rw [Bool.or_eq_true, decide_eq_true_eq, decide_eq_true_eq]
  unfold peek at hpos ⊢
  by_cases hreturn : s[old]? = some 0x0D
  · have := lt_length hreturn
    rw [if_pos hreturn] at hpos ⊢
    by_cases hfeed : s[old + 1]? = some 0x0A
    · have := lt_length hfeed
      rw [if_pos hfeed] at hpos ⊢
      subst hpos
      exact ⟨by omega, by omega, fun _ => Or.inr ⟨old + 1, rfl, Or.inl hfeed⟩, fun _ =>
        Cut.behind hfeed (by decide)⟩
    · rw [if_neg hfeed] at hpos ⊢
      subst hpos
      exact ⟨by omega, by omega, fun _ => Or.inr ⟨old, rfl, Or.inr ⟨hreturn, hfeed⟩⟩, fun _ =>
        Cut.behind hreturn (by decide)⟩
  · rw [if_neg hreturn] at hpos ⊢
    by_cases hfeed : s[old]? = some 0x0A
    · have := lt_length hfeed
      rw [if_pos hfeed] at hpos ⊢
      subst hpos
      exact ⟨by omega, by omega, fun _ => Or.inr ⟨old, rfl, Or.inl hfeed⟩, fun _ =>
        Cut.behind hfeed (by decide)⟩
    · rw [if_neg hfeed] at hpos ⊢
      subst hpos
      exact ⟨le_rfl, hold, fun h => Or.inl (by omega), id⟩

/-- Skipping spaces and one line end goes forward and stays in the text. -/
theorem spnl_spec {pos : Nat} (h : pos ≤ s.length) :
    pos ≤ spnl s pos ∧ spnl s pos ≤ s.length ∧ (Cut s pos → Cut s (spnl s pos)) := by
  obtain ⟨hle, hlen, hcut⟩ := skipSpaces_spec h
  rw [spnl]
  rcases hend : skipLineEnd s (skipSpaces s pos) with ⟨next, ended⟩
  obtain ⟨hnext, hlen', -, hcut'⟩ := skipLineEnd_spec hlen hend
  obtain ⟨hle', hlen'', hcut''⟩ := skipSpaces_spec hlen'
  dsimp only
  split_ifs
  · exact ⟨by omega, hlen'', fun h => hcut'' (hcut' (hcut h))⟩
  · exact ⟨by omega, hlen', fun h => hcut' (hcut h)⟩

/-- Trimming the front stops at a byte that is no space, or at the end. -/
theorem trimStart_spec {turns a : Nat} (h : a + turns ≤ s.length) :
    ∃ a', trimStart s turns a = some a' ∧ a ≤ a' ∧ a' ≤ a + turns ∧
      (a' < a + turns → Written s a') ∧ (Cut s a → Cut s a') := by
  induction turns generalizing a with
  | zero => exact ⟨a, rfl, le_rfl, le_rfl, fun h => absurd h (lt_irrefl a), id⟩
  | succ turns ih =>
    have ha : s[a]? = some s[a] := List.getElem?_eq_getElem (by omega)
    rw [trimStart, ha, Option.bind_eq_bind, Option.bind_some]
    split_ifs with hspace
    · obtain ⟨a', ha', hle, hlen, hwritten, hcut⟩ := ih (a := a + 1) (by omega)
      exact ⟨a', ha', by omega, by omega, fun hlt => hwritten (by omega), fun _ =>
        hcut (Cut.behind ha (ascii_of_isspace hspace))⟩
    · exact ⟨a, rfl, le_rfl, by omega, fun _ => ⟨s[a], ha, Bool.eq_false_iff.2 hspace⟩, id⟩

/-- Trimming the back stops behind a byte that is no space, or at the start. -/
theorem trimEnd_spec {turns z : Nat} (hturns : turns ≤ z) (h : z ≤ s.length) :
    ∃ z', trimEnd s turns z = some z' ∧ z - turns ≤ z' ∧ z' ≤ z ∧
      (z - turns < z' → BehindWritten s z') ∧ (Cut s z → Cut s z') := by
  induction turns generalizing z with
  | zero => exact ⟨z, rfl, le_rfl, le_rfl, fun h => absurd h (lt_irrefl z), id⟩
  | succ turns ih =>
    have hz : s[z - 1]? = some s[z - 1] := List.getElem?_eq_getElem (by omega)
    rw [trimEnd, hz, Option.bind_eq_bind, Option.bind_some]
    split_ifs with hspace
    · obtain ⟨z', hz', hle, hlen, hwritten, hcut⟩ := ih (z := z - 1) (by omega) (by omega)
      exact ⟨z', hz', by omega, by omega, fun hlt => hwritten (by omega), fun _ =>
        hcut (Cut.at hz (ascii_of_isspace hspace))⟩
    · exact ⟨z, rfl, by omega, le_rfl, fun _ =>
        ⟨z - 1, by omega, s[z - 1], hz, Bool.eq_false_iff.2 hspace⟩, id⟩

/-- A label that was read behind the bracket at `start`, up to `pos`. -/
structure LabelRead (s : List UInt8) (start : Nat) (label : Nat × Nat) (pos : Nat) : Prop where
  start_lt : start < label.1
  le : label.1 ≤ label.2
  lt : label.2 < pos
  pos_le : pos ≤ s.length
  beside : label.1 ≠ label.2 → Written s label.1 ∧ BehindWritten s label.2
  cut : Cut s label.1 ∧ Cut s label.2

/-- A label that closes is read between its brackets. -/
theorem closeLabel_spec {start pos : Nat} (hopen : s[start]? = some 0x5B) (hstart : start < pos)
    (hclose : s[pos]? = some 0x5D) :
    ∃ label, closeLabel s start pos = some (label, pos + 1) ∧ LabelRead s start label (pos + 1) := by
  have hpos := lt_length hclose
  obtain ⟨a, ha, hle, hlen, hwritten, hcut⟩ := @trimStart_spec s (pos - (start + 1)) (start + 1) (by omega)
  obtain ⟨z, hz, hle', hlen', hbehind, hcut'⟩ := @trimEnd_spec s (pos - a) pos (by omega)
    (by omega)
  refine ⟨(a, z), ?_, by omega, by omega, by omega, hpos, fun hne => ?_,
    hcut (Cut.behind hopen (by decide)), hcut' (Cut.at hclose (by decide))⟩
  · rw [closeLabel, ha, Option.bind_eq_bind, Option.bind_some, hz]
    rfl
  · exact ⟨hwritten (by omega), hbehind (by omega)⟩

/-- A label is refused, or read up to its closing bracket. -/
theorem linkLabelFrom_spec {start : Nat} (rest : List UInt8) (pos length : Nat)
    (hopen : s[start]? = some 0x5B) (hstart : start < pos) (hrest : rest = s.drop pos) :
    linkLabelFrom s start rest pos length = some none ∨
      ∃ label next, linkLabelFrom s start rest pos length = some (some (label, next)) ∧
        LabelRead s start label next := by
  fun_induction linkLabelFrom s start rest pos length with
  | case1 | case3 | case4 | case6 | case8 | case9 => exact Or.inl rfl
  | case2 rest pos length =>
    obtain ⟨label, hlabel, hread⟩ := closeLabel_spec hopen hstart (getElem?_of_cons hrest)
    exact Or.inr ⟨label, pos + 1, by rw [hlabel]; rfl, hread⟩
  | case5 pos length p rest hpunct hlen _ _ ih =>
    exact ih (hstart.trans (Nat.lt_add_of_pos_right (by decide))) (drop_of_cons (drop_of_cons hrest))
  | case7 | case10 =>
    rename_i ih
    exact ih (Nat.lt_succ_of_lt hstart) (drop_of_cons hrest)

/-- A label is refused, or read between its brackets. -/
theorem linkLabel_spec (start : Nat) :
    linkLabel s start = some none ∨
      ∃ label pos, linkLabel s start = some (some (label, pos)) ∧ LabelRead s start label pos := by
  rw [linkLabel]
  split_ifs with hopen
  · exact linkLabelFrom_spec _ _ _ hopen (Nat.lt_succ_self start) rfl
  · exact Or.inl rfl

end Sc

/-! ## What the destination and the title leave -/

/-- A byte that is not blank, and what is left behind it. -/
theorem behindWritten_of_drop {b : UInt8} {rest : List UInt8} {i : Nat}
    (h : b :: rest = s.drop i) (hb : isspace b = false) :
    rest = s.drop (i + 1) ∧ BehindWritten s (i + 1) :=
  ⟨drop_of_cons h, i, rfl, b, getElem?_of_cons h, hb⟩

/-- No punctuation is white space. -/
theorem isspace_eq_false_of_ispunct {b : UInt8} (h : ispunct b = true) : isspace b = false := by
  simp only [isspace, Bool.or_eq_false_iff, beq_eq_false_iff_ne]
  refine ⟨⟨⟨?_, ?_⟩, ?_⟩, ?_⟩
  all_goals
    rintro rfl
    exact absurd h (by decide)

/-- A bare destination ends in the text. -/
theorem bareFrom_range {rest : List UInt8} {i j parens left : Nat}
    (h : bareFrom rest i parens = some (j, left)) : i ≤ j ∧ j ≤ i + rest.length := by
  fun_induction bareFrom rest i parens with
  | case1 | case4 | case7 | case10 =>
    obtain ⟨rfl, -⟩ := Prod.mk.inj (Option.some.inj h)
    simp
  | case2 | case3 | case6 | case8 | case11 =>
    rename_i ih
    have := ih h
    simp only [List.length_cons] at this ⊢
    omega
  | case5 | case9 => cases h

/-- Each turn takes bytes that are not blank. -/
theorem bareFrom_spec {rest : List UInt8} {i j parens left : Nat} (hrest : rest = s.drop i)
    (h : bareFrom rest i parens = some (j, left)) : j = i ∨ BehindWritten s j := by
  have step : ∀ {i k : Nat}, BehindWritten s k → j = k ∨ BehindWritten s j →
      j = i ∨ BehindWritten s j := fun hk hj => Or.inr (hj.elim (fun hjk => hjk ▸ hk) id)
  fun_induction bareFrom rest i parens with
  | case1 | case7 | case10 => exact Or.inl (Prod.mk.inj (Option.some.inj h)).1.symm
  | case2 i parens p rest hpunct ih =>
    obtain ⟨hp, -⟩ := behindWritten_of_drop hrest (b := 0x5C) rfl
    obtain ⟨hrest, hbehind⟩ := behindWritten_of_drop hp (isspace_eq_false_of_ispunct hpunct)
    exact step hbehind (ih hrest h)
  | case3 | case6 | case8 =>
    rename_i ih
    obtain ⟨hrest, hbehind⟩ := behindWritten_of_drop hrest rfl
    exact step hbehind (ih hrest h)
  | case4 i parens =>
    obtain ⟨rfl, -⟩ := Prod.mk.inj (Option.some.inj h)
    exact Or.inr (behindWritten_of_drop hrest rfl).2
  | case5 | case9 => cases h
  | case11 b rest i parens _ _ _ hspace ih =>
    rw [Bool.not_eq_true, Bool.or_eq_false_iff] at hspace
    obtain ⟨hrest, hbehind⟩ := behindWritten_of_drop hrest hspace.1
    exact step hbehind (ih hrest h)

/-- A destination without brackets ends before an ASCII byte, or at the end. -/
theorem bareFrom_cut {rest : List UInt8} {i j parens left : Nat} (hrest : rest = s.drop i)
    (h : bareFrom rest i parens = some (j, left)) :
    s.length ≤ j ∨ ∃ b : UInt8, b.toNat < 0x80 ∧ s[j]? = some b := by
  fun_induction bareFrom rest i parens with
  | case1 =>
    obtain ⟨rfl, -⟩ := Prod.mk.inj (Option.some.inj h)
    exact Or.inl (List.drop_eq_nil_iff.1 hrest.symm)
  | case2 i parens p rest hpunct ih => exact ih (drop_of_cons (drop_of_cons hrest)) h
  | case3 | case6 | case8 | case11 =>
    rename_i ih
    exact ih (drop_of_cons hrest) h
  | case4 i parens =>
    obtain ⟨rfl, -⟩ := Prod.mk.inj (Option.some.inj h)
    exact Or.inl (List.drop_eq_nil_iff.1 (drop_of_cons hrest).symm)
  | case5 | case9 => cases h
  | case7 =>
    obtain ⟨rfl, -⟩ := Prod.mk.inj (Option.some.inj h)
    exact Or.inr ⟨0x29, by decide, getElem?_of_cons hrest⟩
  | case10 b rest i parens _ _ _ hends _ =>
    obtain ⟨rfl, -⟩ := Prod.mk.inj (Option.some.inj h)
    refine Or.inr ⟨b, ?_, getElem?_of_cons hrest⟩
    rw [Bool.or_eq_true, Bool.and_eq_true, isAsciiControl, decide_eq_true_eq] at hends
    rcases hends with hspace | ⟨hcontrol | rfl, -⟩
    · exact ascii_of_isspace hspace
    · exact (UInt8.lt_iff_toNat_lt.1 hcontrol).trans (by decide)
    · decide

/-- A destination without brackets takes a byte that is not blank first, or it is empty before a
    parenthesis that closes. -/
theorem bareFrom_zero {b : UInt8} {rest : List UInt8} {j left : Nat}
    (h : bareFrom (b :: rest) 0 0 = some (j, left)) :
    isspace b = false ∧ (j = 0 → b = 0x29) := by
  have hmore : ∀ {rest : List UInt8} {i parens : Nat},
      bareFrom rest (i + 1) parens = some (j, left) → j ≠ 0 := fun h =>
    Nat.ne_of_gt ((Nat.succ_pos _).trans_le (bareFrom_range h).1)
  rw [bareFrom.eq_def] at h
  dsimp only at h
  by_cases hslash : b = 0x5C
  · subst hslash
    refine ⟨rfl, fun hj => absurd hj ?_⟩
    rw [if_pos rfl] at h
    split at h
    · split_ifs at h
      · exact hmore h
      · exact hmore h
    · exact (Prod.mk.inj (Option.some.inj h)).1 ▸ Nat.succ_ne_zero 0
  · by_cases hopen : b = 0x28
    · subst hopen
      rw [if_neg hslash, if_pos rfl, if_neg (by decide)] at h
      exact ⟨rfl, fun hj => absurd hj (hmore h)⟩
    · by_cases hclose : b = 0x29
      · exact ⟨hclose ▸ rfl, fun _ => hclose⟩
      · rw [if_neg hslash, if_neg hopen, if_neg hclose, if_pos rfl] at h
        split_ifs at h with hspace
        rw [Bool.not_eq_true, Bool.or_eq_false_iff] at hspace
        exact ⟨hspace.1, fun hj => absurd hj (hmore h)⟩

/-- A destination: where it starts and ends, and what is read. -/
structure DestRead (s : List UInt8) (start stop read : Nat) : Prop where
  le : start ≤ stop
  stop_le : stop ≤ read
  read_le : read ≤ s.length
  beside : read = 0 ∧ s.head? = some 0x29 ∨
    0 < read ∧ Beside s start ∧ Beside s stop ∧ (stop = read → BehindWritten s stop)
  cut : (start = 0 ∨ Cut s start) ∧ Cut s stop

/-- A destination that is scanned is read in the text, in angle brackets or bare. -/
theorem scanLinkUrl_spec {start stop read : Nat} (h : scanLinkUrl s = some (start, stop, read)) :
    DestRead s start stop read := by
  rw [scanLinkUrl] at h
  split_ifs at h with hangle
  · obtain ⟨i, hi, h⟩ := Option.bind_eq_some_iff.1 h
    split_ifs at h with hbad
    rw [Option.pure_def, Option.some_inj, Prod.mk.injEq, Prod.mk.injEq] at h
    obtain ⟨rfl, rfl, rfl⟩ := h
    rw [not_or, not_or, not_le, not_lt, not_ne_iff] at hbad
    obtain ⟨hlen, htwo, hclose⟩ := hbad
    rw [List.head?_eq_getElem?] at hangle
    exact ⟨by omega, by omega, by omega, Or.inr ⟨by omega, Or.inr ⟨0, rfl, 0x3C, hangle, rfl⟩,
      Or.inl ⟨0x3E, hclose, rfl⟩, fun h => by omega⟩, Or.inr (Cut.behind hangle (by decide)),
      Cut.at hclose (by decide)⟩
  · obtain ⟨⟨i, left⟩, hi, h⟩ := Option.bind_eq_some_iff.1 h
    dsimp only at h
    split_ifs at h with hbad
    rw [Option.pure_def, Option.some_inj, Prod.mk.injEq, Prod.mk.injEq] at h
    obtain ⟨rfl, rfl, rfl⟩ := h
    have hlen := (bareFrom_range hi).2
    have hbehind := bareFrom_spec (s := s) (by rw [List.drop_zero]) hi
    refine ⟨Nat.zero_le _, le_rfl, by omega, ?_, Or.inl rfl, ?_⟩
    · cases s with
      | nil => simp at hbad
      | cons b rest =>
        obtain ⟨hb, hzero⟩ := bareFrom_zero hi
        rcases hbehind with rfl | hbehind
        · exact Or.inl ⟨rfl, by rw [hzero rfl]; rfl⟩
        · obtain ⟨k, rfl, hk⟩ := hbehind
          exact Or.inr ⟨Nat.succ_pos k, Or.inl ⟨b, rfl, hb⟩, Or.inr ⟨k, rfl, hk⟩, fun _ =>
            ⟨k, rfl, hk⟩⟩
    · rcases bareFrom_cut (s := s) (by rw [List.drop_zero]) hi with hend | ⟨b, hb, hat⟩
      · exact Or.inl (by omega)
      · exact Cut.at hat hb

/-- A title ends in the text. -/
theorem titleFrom_le {opening closing : UInt8} {rest : List UInt8} {i n : Nat} {here next : Bool}
    {best : Option Nat} (hrest : i + rest.length = s.length) (hbest : ∀ n ∈ best, n ≤ s.length)
    (h : titleFrom opening closing rest i here next best = some n) : n ≤ s.length := by
  induction rest generalizing i here next best with
  | nil => exact hbest n h
  | cons b rest ih =>
    rw [List.length_cons] at hrest
    rw [titleFrom] at h
    by_cases hlive : (here || next) = true
    · rw [if_pos hlive] at h
      refine ih (by omega) (fun m hm => ?_) h
      split_ifs at hm
      · obtain rfl := Option.some.inj hm
        omega
      · exact hbest m hm
    · rw [if_neg hlive] at h
      exact hbest n h

/-- A title that is scanned ends in the text. -/
theorem scanLinkTitle_le {n : Nat} (h : scanLinkTitle s = some n) : n ≤ s.length := by
  rw [scanLinkTitle] at h
  obtain ⟨opening, hopening, h⟩ := Option.bind_eq_some_iff.1 h
  obtain ⟨closing, -, h⟩ := Option.bind_eq_some_iff.1 h
  obtain ⟨rest, rfl⟩ := List.head?_eq_some_iff.1 hopening
  refine titleFrom_le ?_ (fun m hm => absurd hm (Option.not_mem_none m)) h
  rw [List.drop_one, List.tail_cons, List.length_cons, Nat.add_comm]

/-! ## Titles -/

/-- A byte of a title that stands for itself; a backslash may be one. -/
def IsTitleByte (opening closing b : UInt8) : Prop := b ≠ closing ∧ ¬(opening = 0x28 ∧ b = 0x28)

/-- What a title has between its delimiters: escapes and ordinary bytes. -/
inductive TitleText (opening closing : UInt8) : List UInt8 → Prop
  | nil : TitleText opening closing []
  | escape {b : UInt8} {t : List UInt8} (punct : ispunct b = true)
      (rest : TitleText opening closing t) : TitleText opening closing (0x5C :: b :: t)
  | ordinary {b : UInt8} {t : List UInt8} (byte : IsTitleByte opening closing b)
      (rest : TitleText opening closing t) : TitleText opening closing (b :: t)

/-- The grammar of titles. It is ambiguous: a backslash before punctuation can be read as an escape
    and as a byte of its own. -/
def IsTitle (t : List UInt8) : Prop :=
  ∃ opening closing text, titleClose opening = some closing ∧ TitleText opening closing text ∧
    t = opening :: text ++ [closing]

section

variable (opening closing : UInt8)

/-- A title that is open can be closed behind `k` bytes. -/
def ClosesAt (rest : List UInt8) (k : Nat) : Prop :=
  ∃ text behind, TitleText opening closing text ∧ rest = text ++ closing :: behind ∧ text.length = k

/-- Where the scan can still close the title. -/
def Closable (rest : List UInt8) (here next : Bool) (k : Nat) : Prop :=
  (here = true ∧ ClosesAt opening closing rest k) ∨
    (next = true ∧ ∃ b t j, rest = b :: t ∧ k = j + 1 ∧ ClosesAt opening closing t j)

variable {opening closing}

theorem not_closesAt_nil {k : Nat} : ¬ClosesAt opening closing [] k := by
  rintro ⟨text, behind, -, h, -⟩
  exact List.append_ne_nil_of_right_ne_nil text (List.cons_ne_nil _ _) h.symm

/-- The first byte closes the title, is one of its own, or escapes the next. -/
theorem closesAt_cons {b : UInt8} {rest : List UInt8} {k : Nat} :
    ClosesAt opening closing (b :: rest) k ↔ (b = closing ∧ k = 0) ∨
      (∃ j, k = j + 1 ∧ IsTitleByte opening closing b ∧ ClosesAt opening closing rest j) ∨
      ∃ p t j, k = j + 2 ∧ b = 0x5C ∧ rest = p :: t ∧ ispunct p = true ∧
        ClosesAt opening closing t j := by
  constructor
  · rintro ⟨text, behind, htext, heq, rfl⟩
    cases htext with
    | nil => exact Or.inl ⟨(List.cons.inj heq).1, rfl⟩
    | @escape p t hpunct ht =>
      obtain ⟨rfl, rfl⟩ := List.cons.inj heq
      exact Or.inr (Or.inr ⟨p, t ++ closing :: behind, t.length, rfl, rfl, rfl, hpunct, t, behind,
        ht, rfl, rfl⟩)
    | @ordinary _ t hbyte ht =>
      obtain ⟨rfl, rfl⟩ := List.cons.inj heq
      exact Or.inr (Or.inl ⟨t.length, rfl, hbyte, t, behind, ht, rfl, rfl⟩)
  · rintro (⟨rfl, rfl⟩ | ⟨j, rfl, hbyte, t, behind, ht, rfl, rfl⟩ |
      ⟨p, _, j, rfl, rfl, rfl, hpunct, t, behind, ht, rfl, rfl⟩)
    · exact ⟨[], rest, .nil, rfl, rfl⟩
    · exact ⟨b :: t, behind, .ordinary hbyte ht, rfl, rfl⟩
    · exact ⟨0x5C :: p :: t, behind, .escape hpunct ht, rfl, rfl⟩

/-- One byte of the scan: the title is closed here, or behind it from where the next two bytes can
    be reached. -/
theorem closable_cons {b : UInt8} {rest : List UInt8} {here next : Bool} {k : Nat} :
    Closable opening closing (b :: rest) here next k ↔
      (here = true ∧ b = closing ∧ k = 0) ∨ ∃ j, k = j + 1 ∧ Closable opening closing rest
        (next || here && b != closing && !(opening == 0x28 && b == 0x28))
        (here && b == 0x5C && rest.head?.any ispunct) j := by
  have hbyte : (b != closing && !(opening == 0x28 && b == 0x28)) = true ↔
      IsTitleByte opening closing b := by
    rw [IsTitleByte, Bool.and_eq_true, bne_iff_ne, Bool.not_eq_true', Bool.and_eq_false_iff,
      beq_eq_false_iff_ne, beq_eq_false_iff_ne, ← not_and_or]
  have hescape : (here && b == 0x5C && rest.head?.any ispunct) = true ↔
      here = true ∧ b = 0x5C ∧ ∃ p t, rest = p :: t ∧ ispunct p = true := by
    rw [Bool.and_eq_true, Bool.and_eq_true, beq_iff_eq, and_assoc]
    cases rest with
    | nil => simp
    | cons p t => simp
  rw [Closable, closesAt_cons]
  constructor
  · rintro (⟨hhere, ⟨rfl, rfl⟩ | ⟨j, rfl, hb, hj⟩ | ⟨p, t, j, rfl, rfl, rfl, hpunct, hj⟩⟩ |
      ⟨hnext, _, t, j, heq, rfl, hj⟩)
    · exact Or.inl ⟨hhere, rfl, rfl⟩
    · refine Or.inr ⟨j, rfl, Or.inl ⟨?_, hj⟩⟩
      rw [Bool.and_assoc, hhere, Bool.true_and, hbyte.2 hb, Bool.or_true]
    · have hlive := hescape.2 ⟨hhere, rfl, p, t, rfl, hpunct⟩
      exact Or.inr ⟨j + 1, rfl, Or.inr ⟨hlive, p, t, j, rfl, rfl, hj⟩⟩
    · obtain ⟨rfl, rfl⟩ := List.cons.inj heq
      refine Or.inr ⟨j, rfl, Or.inl ⟨?_, hj⟩⟩
      rw [hnext, Bool.true_or]
  · rintro (⟨hhere, rfl, rfl⟩ | ⟨j, rfl, ⟨hlive, hj⟩ | ⟨hlive, p, t, i, rfl, rfl, hi⟩⟩)
    · exact Or.inl ⟨hhere, Or.inl ⟨rfl, rfl⟩⟩
    · rw [Bool.and_assoc, Bool.or_eq_true, Bool.and_eq_true, hbyte] at hlive
      rcases hlive with hnext | ⟨hhere, hb⟩
      · exact Or.inr ⟨hnext, b, rest, j, rfl, rfl, hj⟩
      · exact Or.inl ⟨hhere, Or.inr (Or.inl ⟨j, rfl, hb, hj⟩)⟩
    · obtain ⟨hhere, rfl, p', t', heq, hpunct⟩ := hescape.1 hlive
      obtain ⟨rfl, rfl⟩ := List.cons.inj heq
      exact Or.inl ⟨hhere, Or.inr (Or.inr ⟨p, t, i, rfl, rfl, rfl, hpunct, hi⟩)⟩

/-- The scan finds the last place where the title can be closed; without one it keeps the best that
    it had. -/
theorem titleFrom_spec {rest : List UInt8} {i : Nat} {here next : Bool} {best : Option Nat} :
    (∀ k, Closable opening closing rest here next k →
      ∃ m, k ≤ m ∧ Closable opening closing rest here next m ∧
        titleFrom opening closing rest i here next best = some (i + m + 1)) ∧
    ((∀ k, ¬Closable opening closing rest here next k) →
      titleFrom opening closing rest i here next best = best) := by
  -- By induction on the rest: a title is closed at the first byte, or further on with what that
  -- byte leaves open.
  induction rest generalizing i here next best with
  | nil =>
    refine ⟨fun k hk => ?_, fun _ => rfl⟩
    rcases hk with ⟨-, hk⟩ | ⟨-, _, _, _, heq, -⟩
    · exact absurd hk not_closesAt_nil
    · cases heq
  | cons b rest ih =>
    rw [titleFrom]
    by_cases hlive : (here || next) = true
    · rw [if_pos hlive]
      dsimp only
      obtain ⟨hsome, hnone⟩ := @ih (i + 1)
        (next || here && b != closing && !(opening == 0x28 && b == 0x28))
        (here && b == 0x5C && rest.head?.any ispunct)
        (if (here && b == closing) = true then some (i + 1) else best)
      have hmove (m : Nat) : i + 1 + m + 1 = i + (m + 1) + 1 := by omega
      constructor
      · intro k hk
        by_cases hlater : ∃ j, Closable opening closing rest
            (next || here && b != closing && !(opening == 0x28 && b == 0x28))
            (here && b == 0x5C && rest.head?.any ispunct) j
        · obtain ⟨j₀, hj₀⟩ := hlater
          rcases closable_cons.1 hk with ⟨-, -, rfl⟩ | ⟨j, rfl, hj⟩
          · obtain ⟨m, -, hm, hend⟩ := hsome j₀ hj₀
            exact ⟨m + 1, Nat.zero_le _, closable_cons.2 (Or.inr ⟨m, rfl, hm⟩), by rw [hend, hmove]⟩
          · obtain ⟨m, hle, hm, hend⟩ := hsome j hj
            exact ⟨m + 1, Nat.succ_le_succ hle, closable_cons.2 (Or.inr ⟨m, rfl, hm⟩),
              by rw [hend, hmove]⟩
        · rcases closable_cons.1 hk with ⟨hhere, hclose, rfl⟩ | ⟨j, rfl, hj⟩
          · refine ⟨0, le_rfl, hk, ?_⟩
            rw [hnone (not_exists.1 hlater), hhere, hclose, Bool.true_and, beq_self_eq_true,
              if_pos rfl]
          · exact absurd ⟨j, hj⟩ hlater
      · intro hno
        rw [hnone fun j hj => hno _ (closable_cons.2 (Or.inr ⟨j, rfl, hj⟩)), if_neg]
        intro hclose
        rw [Bool.and_eq_true, beq_iff_eq] at hclose
        exact hno 0 (closable_cons.2 (Or.inl ⟨hclose.1, hclose.2, rfl⟩))
    · rw [if_neg hlive]
      rw [Bool.or_eq_true, not_or] at hlive
      refine ⟨fun k hk => ?_, fun _ => rfl⟩
      rcases hk with ⟨hhere, -⟩ | ⟨hnext, -⟩
      · exact absurd hhere hlive.1
      · exact absurd hnext hlive.2

end

/-- The prefixes of a byte string that are titles, by where they close. -/
theorem exists_isTitle_iff {opening closing : UInt8} (hclose : titleClose opening = some closing)
    {rest : List UInt8} {n : Nat} :
    (∃ t, IsTitle t ∧ t <+: opening :: rest ∧ t.length = n) ↔
      ∃ k, n = k + 2 ∧ ClosesAt opening closing rest k := by
  constructor
  · rintro ⟨_, ⟨_, _, text, hclose', htext, rfl⟩, ⟨behind, heq⟩, rfl⟩
    obtain ⟨rfl, rfl⟩ := List.cons.inj heq
    obtain rfl := Option.some.inj (hclose.symm.trans hclose')
    refine ⟨text.length, ?_, text, behind, htext, List.append_assoc text [closing] behind, rfl⟩
    rw [List.cons_append, List.length_cons, List.length_append, List.length_singleton]
  · rintro ⟨k, rfl, text, behind, htext, rfl, rfl⟩
    refine ⟨opening :: text ++ [closing], ⟨opening, closing, text, hclose, htext, rfl⟩,
      ⟨behind, ?_⟩, ?_⟩
    · rw [List.cons_append, List.cons_append, List.append_assoc]
      rfl
    · rw [List.cons_append, List.length_cons, List.length_append, List.length_singleton]

/-- The scan of a title takes the longest prefix that the grammar has, whatever its backslashes are
    read as, and none where it has none. -/
theorem scanLinkTitle_spec (s : List UInt8) :
    (∀ n, scanLinkTitle s = some n ↔
      IsGreatest {n | ∃ t, IsTitle t ∧ t <+: s ∧ t.length = n} n) ∧
    (scanLinkTitle s = none ↔ ∀ t, t <+: s → ¬IsTitle t) := by
  -- Without a title among the prefixes both sides say none.
  have hnone (hno : ∀ t, t <+: s → ¬IsTitle t) (hscan : scanLinkTitle s = none) :
      (∀ n, scanLinkTitle s = some n ↔
        IsGreatest {n | ∃ t, IsTitle t ∧ t <+: s ∧ t.length = n} n) ∧
      (scanLinkTitle s = none ↔ ∀ t, t <+: s → ¬IsTitle t) := by
    refine ⟨fun n => ⟨fun h => ?_, fun h => ?_⟩, fun _ => hno, fun _ => hscan⟩
    · rw [hscan] at h
      cases h
    · obtain ⟨⟨t, ht, hprefix, -⟩, -⟩ := h
      exact absurd ht (hno t hprefix)
  cases s with
  | nil =>
    refine hnone (fun t hprefix ht => ?_) rfl
    obtain ⟨opening, closing, text, -, -, rfl⟩ := ht
    exact absurd (List.prefix_nil.1 hprefix) (List.cons_ne_nil _ _)
  | cons opening rest =>
    cases hclose : titleClose opening with
    | none =>
      refine hnone (fun t hprefix ht => ?_) ?_
      · obtain ⟨opening', closing, text, hclose', -, rfl⟩ := ht
        obtain rfl := (List.cons_prefix_cons.1 hprefix).1
        rw [hclose] at hclose'
        cases hclose'
      · rw [scanLinkTitle, List.head?_cons, Option.bind_eq_bind, Option.bind_some, hclose]
        rfl
    | some closing =>
      have hscan : scanLinkTitle (opening :: rest) =
          titleFrom opening closing rest 1 true false none := by
        rw [scanLinkTitle, List.head?_cons, Option.bind_eq_bind, Option.bind_some, hclose]
        rfl
      have hopen (k : Nat) : Closable opening closing rest true false k ↔
          ClosesAt opening closing rest k := by
        simp [Closable]
      obtain ⟨hfound, hmissed⟩ := @titleFrom_spec opening closing rest 1 true false none
      -- The last place where the title can be closed ends the longest one.
      by_cases hany : ∃ k, ClosesAt opening closing rest k
      · obtain ⟨k, hk⟩ := hany
        obtain ⟨m, -, hm, hend⟩ := hfound k ((hopen k).2 hk)
        have hgreatest : IsGreatest
            {n | ∃ t, IsTitle t ∧ t <+: opening :: rest ∧ t.length = n} (m + 2) := by
          refine ⟨(exists_isTitle_iff hclose).2 ⟨m, rfl, (hopen m).1 hm⟩, fun n hn => ?_⟩
          obtain ⟨j, rfl, hj⟩ := (exists_isTitle_iff hclose).1 hn
          obtain ⟨m', hle, -, hend'⟩ := hfound j ((hopen j).2 hj)
          have := Option.some.inj (hend.symm.trans hend')
          omega
        have hvalue : scanLinkTitle (opening :: rest) = some (m + 2) := by
          rw [hscan, hend, Nat.add_comm 1 m]
        refine ⟨fun n => ⟨fun h => ?_, fun h => ?_⟩, fun h => ?_, fun h => ?_⟩
        · rw [hvalue] at h
          rwa [← Option.some.inj h]
        · rw [hvalue, le_antisymm (hgreatest.2 h.1) (h.2 hgreatest.1)]
        · rw [hvalue] at h
          cases h
        · obtain ⟨t, ht, hprefix, -⟩ := hgreatest.1
          exact absurd ht (h t hprefix)
      · refine hnone (fun t hprefix ht => ?_) ?_
        · obtain ⟨k, -, hk⟩ := (exists_isTitle_iff hclose).1 ⟨t, ht, hprefix, rfl⟩
          exact hany ⟨k, hk⟩
        · rw [hscan]
          exact hmissed fun k hk => hany ⟨k, (hopen k).1 hk⟩

/-- Of two readings of a backslash the longer title is taken, and a title that only one closes. -/
example : scanLinkTitle [0x22, 0x5C, 0x22, 0x61, 0x22] = some 5 ∧
    scanLinkTitle [0x22, 0x61, 0x5C, 0x5C, 0x22] = some 5 := by
  decide

/-! ## One definition -/

/-- A definition that takes `n` bytes. -/
structure DefinitionRead (s : List UInt8) (n : Nat) (label dest : Nat × Nat) : Prop where
  label_start : 0 < label.1
  label_lt : label.1 < label.2
  label_dest : label.2 ≤ dest.1
  dest_le : dest.1 ≤ dest.2
  dest_stop : dest.2 ≤ n
  stop_le : n ≤ s.length
  beside : ∀ off ∈ [label.1, label.2, dest.1, dest.2], Beside s off ∧ Cut s off
  dest_behind : dest.2 = n → BehindWritten s dest.2
  atLineEnd : AtLineEnd s n

/-- A definition ends at a line's end behind its title, or behind its destination. -/
theorem definitionEnd_spec {beforeTitle : Nat} (h : beforeTitle ≤ s.length) :
    ∃ o, definitionEnd s beforeTitle = some o ∧
      ∀ stop ∈ o, beforeTitle ≤ stop ∧ stop ≤ s.length ∧ AtLineEnd s stop := by
  obtain ⟨hle, hlen, -⟩ := Sc.spnl_spec h
  -- The end of the line is looked for behind the title, and then behind the destination.
  have line : ∀ {pos : Nat}, beforeTitle ≤ pos → pos ≤ s.length →
      ∀ stop, Sc.skipLineEnd s (Sc.skipSpaces s pos) = (stop, true) →
        beforeTitle ≤ stop ∧ stop ≤ s.length ∧ AtLineEnd s stop := fun hpos hlen stop hstop => by
    obtain ⟨hskip, hskip', -⟩ := Sc.skipSpaces_spec hlen
    obtain ⟨hstop', hlen', hend, -⟩ := Sc.skipLineEnd_spec hskip' hstop
    exact ⟨by omega, hlen', hend rfl⟩
  have title : ∃ title, (if Sc.spnl s beforeTitle = beforeTitle then some none
      else (sliceFrom s (Sc.spnl s beforeTitle)).map scanLinkTitle) = some title ∧
      ∀ n ∈ title, Sc.spnl s beforeTitle + n ≤ s.length := by
    split_ifs
    · exact ⟨none, rfl, fun n hn => absurd hn (Option.not_mem_none n)⟩
    · refine ⟨scanLinkTitle (s.drop (Sc.spnl s beforeTitle)), ?_, fun n hn => ?_⟩
      · rw [sliceFrom, if_pos hlen, Option.map_some]
      · have := scanLinkTitle_le hn
        rw [List.length_drop] at this
        omega
  obtain ⟨title, htitle, hn⟩ := title
  rw [definitionEnd]
  dsimp only
  rw [htitle, Option.bind_eq_bind, Option.bind_some]
  have hpos : beforeTitle ≤ title.elim beforeTitle (Sc.spnl s beforeTitle + ·) ∧
      title.elim beforeTitle (Sc.spnl s beforeTitle + ·) ≤ s.length := by
    cases title with
    | none => exact ⟨le_rfl, h⟩
    | some n => exact ⟨hle.trans (Nat.le_add_right _ n), hn n rfl⟩
  rcases hend : Sc.skipLineEnd s (Sc.skipSpaces s
    (title.elim beforeTitle (Sc.spnl s beforeTitle + ·))) with ⟨stop, ended⟩
  rcases hend' : Sc.skipLineEnd s (Sc.skipSpaces s beforeTitle) with ⟨stop', ended'⟩
  dsimp only
  cases ended with
  | true =>
    refine ⟨some stop, rfl, fun _ h => ?_⟩
    obtain rfl := Option.some.inj h
    exact line hpos.1 hpos.2 _ hend
  | false =>
    cases title with
    | none => exact ⟨none, rfl, fun n hn => absurd hn (Option.not_mem_none n)⟩
    | some n =>
      cases ended' with
      | true =>
        refine ⟨some stop', rfl, fun _ h' => ?_⟩
        obtain rfl := Option.some.inj h'
        exact line le_rfl h _ hend'
      | false => exact ⟨none, rfl, fun n hn => absurd hn (Option.not_mem_none n)⟩

/-- Before a byte that is neither blank nor ends a line there is no title, and no end of the line. -/
theorem definitionEnd_of_written {pos : Nat} (h : Written s pos) :
    definitionEnd s pos = some none := by
  obtain ⟨b, hb, hspace⟩ := h
  have hlt := lt_length hb
  simp only [isspace, Bool.or_eq_false_iff, beq_eq_false_iff_ne] at hspace
  obtain ⟨⟨⟨hblank, htab⟩, hfeed⟩, hreturn⟩ := hspace
  have hskip : Sc.skipSpaces s pos = pos := by
    rw [Sc.skipSpaces, List.drop_eq_getElem_cons hlt, Sc.skipSpacesFrom, if_neg]
    rw [List.getElem?_eq_getElem hlt, Option.some_inj] at hb
    rw [hb, not_or]
    exact ⟨hblank, htab⟩
  have hend : Sc.skipLineEnd s pos = (pos, false) := by
    simp only [Sc.skipLineEnd, Sc.peek, hb, Option.some_inj, if_neg hreturn, if_neg hfeed]
    simp [hlt]
  have hspnl : Sc.spnl s pos = pos := by
    rw [Sc.spnl, hskip, hend]
    rfl
  simp [definitionEnd, hspnl, hskip, hend]

/-- A definition is read without a panic, and it ends with a line. -/
theorem parseReferenceInline_spec (content : Str) :
    ∃ o, parseReferenceInline content = some o ∧
      ∀ n label dest, o = some (n, label, dest) → DefinitionRead (utf8 content) n label dest := by
  have none_spec : ∃ o, (some none : Option (Option (Nat × (Nat × Nat) × (Nat × Nat)))) = some o ∧
      ∀ n label dest, o = some (n, label, dest) → DefinitionRead (utf8 content) n label dest :=
    ⟨none, rfl, fun _ _ _ h => by cases h⟩
  -- Label, colon, destination and end, one after the other; each that is missing leaves no
  -- definition.
  rw [parseReferenceInline]
  generalize utf8 content = s at none_spec ⊢
  dsimp only
  rcases Sc.linkLabel_spec (s := s) 0 with hlabel | ⟨label, pos, hlabel, hread⟩
  · rw [hlabel]
    exact none_spec
  rw [hlabel, Option.bind_eq_bind, Option.bind_some]
  dsimp only
  split_ifs with hempty hcolon
  · exact none_spec
  · exact none_spec
  rw [not_not] at hcolon
  have hpos := lt_length hcolon
  obtain ⟨hle, hlen', hcut⟩ := @Sc.spnl_spec s (pos + 1) hpos
  have hcut := hcut (Cut.behind hcolon (by decide))
  rw [sliceFrom, if_pos hlen', Option.bind_eq_bind, Option.bind_some]
  rcases hurl : scanLinkUrl (s.drop (Sc.spnl s (pos + 1))) with - | ⟨start, stop, read⟩
  · exact none_spec
  dsimp only
  obtain ⟨hstart, hstop, hread', hbeside, hcut', hcut''⟩ := scanLinkUrl_spec hurl
  rw [List.length_drop] at hread'
  obtain ⟨o, ho, hend⟩ := @definitionEnd_spec s (Sc.spnl s (pos + 1) + read)
    (by omega)
  rw [ho, Option.bind_eq_bind, Option.bind_some]
  cases o with
  | none => exact none_spec
  | some n =>
    obtain ⟨hn, hn', hline⟩ := hend n rfl
    refine ⟨_, rfl, fun _ _ _ h => ?_⟩
    obtain ⟨rfl, rfl, rfl⟩ : n = _ ∧ label = _ ∧ _ = _ := by simpa using h
    generalize Sc.spnl s (pos + 1) = p at *
    have hpl := hread.lt
    rcases hbeside with ⟨rfl, hclose⟩ | ⟨hpos', hstart', hstop', hbehind⟩
    · -- Nothing ends the line before a closing parenthesis.
      rw [List.head?_drop] at hclose
      rw [Nat.add_zero, definitionEnd_of_written ⟨0x29, hclose, rfl⟩] at ho
      cases ho
    · obtain ⟨hlabel, hlabel'⟩ := hread.beside hempty
      refine ⟨hread.start_lt, lt_of_le_of_ne hread.le hempty, ?_, ?_, ?_, hn', ?_, ?_, hline⟩
      · show label.2 ≤ p + start
        omega
      · exact Nat.add_le_add_left hstart p
      · show p + stop ≤ n
        omega
      · simp only [List.mem_cons, List.not_mem_nil, or_false, forall_eq_or_imp, forall_eq]
        refine ⟨⟨Or.inl hlabel, hread.cut.1⟩, ⟨Or.inr hlabel', hread.cut.2⟩, ⟨hstart'.drop, ?_⟩,
          hstop'.drop, hcut''.drop hlen'⟩
        rcases hcut' with rfl | hcut'
        · exact hcut
        · exact hcut'.drop hlen'
      · intro (hend : p + stop = n)
        exact (hbehind (by omega)).drop

/-! ## All definitions of a buffer -/

namespace BufferDefinition

/-- A definition of the bytes `s`: it begins with a bracket, its endpoints are in order and next to
    what is written, and it ends with a line. -/
structure Of (d : BufferDefinition) (s : List UInt8) : Prop where
  opening : s[d.start]? = some 0x5B
  start_label : d.start < d.label.1
  label_lt : d.label.1 < d.label.2
  label_dest : d.label.2 ≤ d.dest.1
  dest_le : d.dest.1 ≤ d.dest.2
  dest_stop : d.dest.2 ≤ d.stop
  stop_le : d.stop ≤ s.length
  beside : ∀ off ∈ [d.label.1, d.label.2, d.dest.1, d.dest.2], Beside s off ∧ Cut s off
  dest_behind : d.dest.2 = d.stop → BehindWritten s d.dest.2
  atLineEnd : AtLineEnd s d.stop

/-- A definition is not empty. -/
theorem Of.start_lt_stop {d : BufferDefinition} (h : d.Of s) : d.start < d.stop :=
  ((h.start_label.trans h.label_lt).trans_le (h.label_dest.trans h.dest_le)).trans_le h.dest_stop

/-- What is read from `pos` on. -/
theorem of_drop {pos n : Nat} {label dest : Nat × Nat} (hopen : s[pos]? = some 0x5B)
    (h : DefinitionRead (s.drop pos) n label dest) :
    Of ⟨pos, pos + n, (pos + label.1, pos + label.2), (pos + dest.1, pos + dest.2)⟩ s := by
  have hpos := lt_length hopen
  have hlen := h.stop_le
  rw [List.length_drop] at hlen
  refine ⟨hopen, Nat.lt_add_of_pos_right h.label_start, Nat.add_lt_add_left h.label_lt pos,
    Nat.add_le_add_left h.label_dest pos, Nat.add_le_add_left h.dest_le pos,
    Nat.add_le_add_left h.dest_stop pos, ?_, ?_, ?_, h.atLineEnd.drop hpos.le⟩
  · show pos + n ≤ s.length
    omega
  · have := h.beside
    simp only [List.mem_cons, List.not_mem_nil, or_false, forall_eq_or_imp, forall_eq] at this ⊢
    obtain ⟨⟨h₁, h₁'⟩, ⟨h₂, h₂'⟩, ⟨h₃, h₃'⟩, h₄, h₄'⟩ := this
    exact ⟨⟨h₁.drop, h₁'.drop hpos.le⟩, ⟨h₂.drop, h₂'.drop hpos.le⟩, ⟨h₃.drop, h₃'.drop hpos.le⟩,
      h₄.drop, h₄'.drop hpos.le⟩
  · intro (hend : pos + dest.2 = pos + n)
    exact (h.dest_behind (Nat.add_left_cancel hend)).drop

end BufferDefinition

/-- Definitions one behind the other, from `pos` on. -/
def Consecutive : (pos : Nat) → List BufferDefinition → Prop
  | _, [] => True
  | pos, d :: defs => d.start = pos ∧ Consecutive d.stop defs

/-- The loop reads definitions one behind the other, each of the buffer. -/
theorem definitionsFrom_spec (buffer : Str) (turns pos : Nat) (out : List BufferDefinition)
    (hpos : pos ≤ Str.len buffer) (hturns : Str.len buffer < pos + turns) :
    ∃ defs, definitionsFrom buffer turns pos out = some (out ++ defs) ∧ Consecutive pos defs ∧
      ∀ d ∈ defs, d.Of (utf8 buffer) := by
  induction turns generalizing pos out with
  | zero => exact absurd hpos (not_le.2 hturns)
  | succ turns ih =>
    have hdone : ∃ defs, some out = some (out ++ defs) ∧ Consecutive pos defs ∧
        ∀ d ∈ defs, d.Of (utf8 buffer) :=
      ⟨[], by rw [List.append_nil], trivial, fun d hd => absurd hd List.not_mem_nil⟩
    rw [definitionsFrom]
    by_cases hopen : (utf8 buffer)[pos]? = some 0x5B
    · rw [if_pos hopen]
      obtain ⟨p, c, t, rfl, rfl, -⟩ := Str.exists_of_ascii hopen (by decide)
      obtain ⟨o, ho, hread⟩ := parseReferenceInline_spec (c :: t)
      rw [Str.sliceFrom_append, Option.bind_eq_bind, Option.bind_some, ho, Option.bind_eq_bind,
        Option.bind_some]
      match o with
      | none => exact hdone
      | some (n, label, dest) =>
        have hof := BufferDefinition.of_drop hopen (Str.drop_utf8 p (c :: t) ▸ hread n label dest rfl)
        have hlt := hof.start_lt_stop
        obtain ⟨defs, hdefs, hnext, hofs⟩ := ih (Str.len p + n) _ hof.stop_le
          (by dsimp only at hlt; omega)
        refine ⟨_ :: defs, ?_, ⟨rfl, hnext⟩, List.forall_mem_cons.2 ⟨hof, hofs⟩⟩
        exact hdefs.trans (by rw [List.append_assoc]; rfl)
    · rw [if_neg hopen]
      exact hdone

/-- The definitions of a buffer are found without a panic, one behind the other from its start. -/
theorem paragraphDefinitions_spec (buffer : Str) :
    ∃ defs, paragraphDefinitions buffer = some defs ∧ Consecutive 0 defs ∧
      ∀ d ∈ defs, d.Of (utf8 buffer) := by
  obtain ⟨defs, hdefs, h⟩ :=
    definitionsFrom_spec buffer (Str.len buffer + 1) 0 [] (Nat.zero_le _) (by omega)
  exact ⟨defs, by rw [paragraphDefinitions, hdefs, List.nil_append], h⟩

end Flark.Native
