import Flark.Input.InputContext
import Flark.Lib.Agree
import Flark.Lib.Tokens

/-!
# The platform's line breaks

The window as the platform holds it, with line feeds for line breaks, and the source that a value
of the platform proposes (`value` and `expand` of `flark_flutter/lib/src/input_context.dart`). The
platform edits the text it was sent, so the one span it changed is found and replaced in the
source, and every other line break keeps its carriage return.

* `InputContext.value`: what the platform is sent;
* `InputContext.expand`: what a value of it proposes;
* `InputContext.expand_spec`: nothing is lost on the way, and what is proposed reads back.
-/

namespace Flark

namespace InputContext

/-! ## Line breaks and line feeds -/

/-- `_crlfs`: where each line break of a text begins that starts at an offset. -/
def crlfsFrom : (i : Nat) → Text → List Nat
  | i, 0x0D :: 0x0A :: t => i :: crlfsFrom (i + 2) t
  | i, _ :: t => crlfsFrom (i + 1) t
  | _, [] => []

def crlfs (window : Text) : List Nat := crlfsFrom 0 window

/-- `replaceAll('\r\n', '\n')`. -/
def feeds : Text → Text
  | 0x0D :: 0x0A :: t => 0x0A :: feeds t
  | u :: t => u :: feeds t
  | [] => []

/-- `_withoutCrs`: an offset of the text with line feeds, less the carriage returns before it. -/
def withoutCrs (crs : List Nat) (offset : Int) : Int :=
  offset - (crs.takeWhile fun (c : Nat) => decide ((c : Int) < offset)).length

/-- `_withCrs`: an offset of the window; one at a line break stays before its carriage return. -/
def withCrs (crs : List Nat) (offset : Int) : Int :=
  offset + (crs.zipIdx.takeWhile fun (c, n) => decide ((c : Int) - n < offset)).length

/-! ## What the platform is sent -/

/-- `_selection`. -/
def moveSelection (s : TextSelection) (offset : Int) : TextSelection :=
  { s with baseOffset := s.baseOffset + offset, extentOffset := s.extentOffset + offset }

/-- `_range`. -/
def moveRange (r : TextRange) (offset : Int) : TextRange :=
  if r.isValid then ⟨r.start + offset, r.stop + offset⟩ else .empty

/-- The part of the source in the window. -/
def window (ctx : InputContext) : Text := ctx.source.text.substring ctx.start ctx.stop

/-- `value`: the window as the platform holds it. -/
def value (ctx : InputContext) : TextEditingValue :=
  let window := ctx.window
  let crs := crlfs window
  if crs.isEmpty then
    { text := window
      selection := moveSelection ctx.source.selection (-ctx.start)
      composing := moveRange ctx.source.composing (-ctx.start) }
  else
    let local' (offset : Int) : Int := withoutCrs crs (offset - ctx.start)
    let selection := ctx.source.selection
    let composing := ctx.source.composing
    { text := feeds window
      selection :=
        { selection with
          baseOffset := local' selection.baseOffset
          extentOffset := local' selection.extentOffset }
      composing :=
        if composing.isValid then ⟨local' composing.start, local' composing.stop⟩ else .empty }

/-! ## What the platform proposes -/

/-- `deletes`: the text sent without `removed` units from an offset on is the next one. -/
def deletes (sent next : Text) (removed : Int) (start : Int) : Bool :=
  decide (0 ≤ start) && decide (start + removed ≤ sent.length) &&
    next.startsWith (sent.substring 0 start) 0 &&
    (sent.drop (start + removed).toNat).isSuffixOf next

/-- The one span that the platform changed of the text it was sent: what is before it and what is
    behind it. A deletion beside the caret is read there, and so is a replacement of the
    selection, but for what it leaves as it was. -/
def changed (sent next : Text) (selection moved : TextSelection)
    (selectionStart selectionEnd : Int) : Nat × Nat :=
  let removed : Int := sent.length - next.length
  let caret := selectionStart
  if selection.isValid && selection.isCollapsed && moved.isCollapsed && decide (0 < removed) &&
      decide (0 ≤ caret) && decide (caret ≤ sent.length) &&
      (moved.extentOffset == caret - removed && deletes sent next removed (caret - removed) ||
        moved.extentOffset == caret && deletes sent next removed caret) then
    -- A deletion in front of the caret or behind it: the caret says which of two equal units has
    -- gone.
    (moved.extentOffset.toNat, (sent.length - moved.extentOffset - removed).toNat)
  else if selection.isValid && decide (0 ≤ selectionStart) &&
      decide (selectionEnd ≤ sent.length) &&
      decide (selectionStart + sent.length - selectionEnd ≤ next.length) &&
      next.startsWith (sent.substring 0 selectionStart) 0 &&
      (sent.drop selectionEnd.toNat).isSuffixOf next then
    -- A replacement of the selection, less what is the same at its ends.
    let s := (sent.length - selectionEnd).toNat
    let a := scanBefore sent next selectionStart.toNat s
    (a, scanBehind sent next a s)
  else
    -- Else the least span.
    let a := scanBefore sent next 0 0
    (a, scanBehind sent next a 0)

/-- `full` of `expand`, from the start of the window: an offset before the span that changed, in
    it and behind it. -/
def fullOffset (crs : List Nat) (sent next a s : Nat) (offset : Int) : Int :=
  let start := withCrs crs a
  let stop := withCrs crs (sent - s)
  let inserted : Int := next - s - a
  if offset ≤ a then withCrs crs offset
  else if offset ≤ a + inserted then start + offset - a
  else start + inserted - stop + withCrs crs (offset - a - inserted + sent - s)

/-- `expand`: the source that a value of the platform proposes. -/
def expand (ctx : InputContext) (next : TextEditingValue) : Option TextEditingValue :=
  if !next.selection.isValid || decide (next.text.length < next.selection.stop) ||
      (next.composing.isValid && decide (next.text.length < next.composing.stop)) then none
  else
    let window := ctx.window
    let crs := crlfs window
    -- The window was sent as it is, so that it is replaced as a whole.
    if crs.isEmpty then
      some
        { text := ctx.source.text.replaceRange ctx.start.toNat ctx.stop.toNat next.text
          selection := moveSelection next.selection ctx.start
          composing := moveRange next.composing ctx.start }
    else
      let sent := feeds window
      let selection := ctx.source.selection
      let span := changed sent next.text selection next.selection
        (withoutCrs crs (selection.start - ctx.start)) (withoutCrs crs (selection.stop - ctx.start))
      -- Only the span that the platform changed is replaced: the breaks around it keep their
      -- carriage returns.
      let a := span.1
      let s := span.2
      let start := withCrs crs a
      let stop := withCrs crs (sent.length - s)
      let inserted : Int := next.text.length - s - a
      let full (offset : Int) : Int :=
        ctx.start + fullOffset crs sent.length next.text.length a s offset
      some
        { text := ctx.source.text.replaceRange (ctx.start + start).toNat (ctx.start + stop).toNat
            (next.text.substring a (a + inserted))
          selection :=
            { next.selection with
              baseOffset := full next.selection.baseOffset
              extentOffset := full next.selection.extentOffset }
          composing :=
            if next.composing.isValid then ⟨full next.composing.start, full next.composing.stop⟩
            else .empty }

/-! ## Tokens -/

/-- A unit of a text, or a line break in it. -/
inductive Token
  | unit (u : UInt16)
  | lineBreak
  deriving DecidableEq

namespace Token

def spell : Token → Text
  | unit u => [u]
  | lineBreak => [0x0D, 0x0A]

theorem spell_ne_nil (t : Token) : spell t ≠ [] := by
  cases t <;> exact List.cons_ne_nil _ _

/-- The unit the platform has for it. -/
def feed : Token → UInt16
  | unit u => u
  | lineBreak => 0x0A

end Token

open Token Tokens

/-- The tokens of a text. -/
def tokens : Text → List Token
  | 0x0D :: 0x0A :: t => lineBreak :: tokens t
  | u :: t => unit u :: tokens t
  | [] => []

section

variable {u : UInt16} {t : Text} {i : Nat}

theorem tokens_lineBreak : tokens (0x0D :: 0x0A :: t) = lineBreak :: tokens t := rfl

theorem crlfsFrom_lineBreak : crlfsFrom i (0x0D :: 0x0A :: t) = i :: crlfsFrom (i + 2) t := rfl

theorem feeds_lineBreak : feeds (0x0D :: 0x0A :: t) = 0x0A :: feeds t := rfl

-- A unit that does not begin a line break.
variable (h : ∀ rest, u = 0x0D → t = 0x0A :: rest → False)

include h

/-- A unit that begins no CRLF is a token of its own. -/
theorem tokens_unit : tokens (u :: t) = unit u :: tokens t := by
  rw [tokens]
  exact h

theorem crlfsFrom_unit : crlfsFrom i (u :: t) = crlfsFrom (i + 1) t := by
  rw [crlfsFrom]
  exact h

theorem feeds_unit : feeds (u :: t) = u :: feeds t := by
  rw [feeds]
  exact h

end

/-- A text begins with a line break, or with a unit that begins none, or it is empty. -/
theorem tokens_induction {motive : Text → Prop}
    (lineBreak : ∀ t, motive t → motive (0x0D :: 0x0A :: t))
    (unit : ∀ u t, (∀ rest, u = 0x0D → t = 0x0A :: rest → False) → motive t → motive (u :: t))
    (nil : motive []) (t : Text) : motive t :=
  tokens.induct motive lineBreak unit nil t

/-- Tokens spell the text that they are of. -/
theorem spelled_tokens (t : Text) : spelled spell (tokens t) = t := by
  induction t using tokens_induction with
  | lineBreak t ih => rw [tokens_lineBreak, spelled, List.flatMap_cons, ← spelled, ih]; rfl
  | unit u t h ih => rw [tokens_unit h, spelled, List.flatMap_cons, ← spelled, ih]; rfl
  | nil => rfl

/-- The text with its breaks as LF has one unit for each token. -/
theorem feeds_eq (t : Text) : feeds t = (tokens t).map feed := by
  induction t using tokens_induction with
  | lineBreak t ih => rw [tokens_lineBreak, feeds_lineBreak, ih, List.map_cons]; rfl
  | unit u t h ih => rw [tokens_unit h, feeds_unit h, ih, List.map_cons]; rfl
  | nil => rfl

/-- Tokens are read back, where no carriage return stands alone. -/
theorem tokens_spelled {ts : List Token} (h : unit 0x0D ∉ ts) : tokens (spelled spell ts) = ts := by
  induction ts with
  | nil => rfl
  | cons t ts ih =>
    obtain ⟨ht, hts⟩ := not_or.1 (mt List.mem_cons.2 h)
    cases t with
    | lineBreak => exact congrArg (lineBreak :: ·) (ih hts)
    | unit u =>
      change tokens (u :: spelled spell ts) = _
      rw [tokens_unit fun _ hu => absurd (congrArg unit hu.symm) ht, ih hts]

/-- Without a bare CR, a CR is in a break only. -/
theorem unit_notMem_tokens {t : Text} (h : t.NoBareReturn) : unit 0x0D ∉ tokens t := by
  induction t using tokens_induction with
  | lineBreak t ih =>
    rw [tokens_lineBreak, List.mem_cons, not_or]
    exact ⟨fun h => (by cases h), ih fun k hk => h (k + 2) hk⟩
  | unit u t hne ih =>
    rw [tokens_unit hne, List.mem_cons, not_or]
    refine ⟨fun hu => ?_, ih fun k hk => h (k + 1) hk⟩
    obtain rfl := Token.unit.inj hu
    have hnext := h 0 rfl
    cases t with
    | nil => cases hnext
    | cons v t => exact hne t rfl (congrArg (· :: t) (Option.some_inj.1 hnext))
  | nil => exact List.not_mem_nil

/-- Two texts without a bare CR make one. -/
theorem noBareReturn_append {t t' : Text} (h : t.NoBareReturn) (h' : t'.NoBareReturn) :
    Text.NoBareReturn (t ++ t') := by
  intro k hk
  rcases Nat.lt_or_ge k t.length with hlt | hge
  · rw [List.getElem?_append_left hlt] at hk
    have hnext := h k hk
    rwa [List.getElem?_append_left (List.getElem?_eq_some_iff.1 hnext).1]
  · rw [List.getElem?_append_right hge] at hk
    have hnext := h' _ hk
    rwa [List.getElem?_append_right (by omega), show k + 1 - t.length = k - t.length + 1 by omega]

/-- Tokens among which there is no CR spell a text without a bare one. -/
theorem noBareReturn_spelled {ts : List Token} (h : unit 0x0D ∉ ts) :
    Text.NoBareReturn (spelled spell ts) := by
  induction ts with
  | nil => exact fun k hk => by cases hk
  | cons t ts ih =>
    obtain ⟨ht, hts⟩ := not_or.1 (mt List.mem_cons.2 h)
    refine noBareReturn_append (fun k hk => ?_) (ih hts)
    cases t with
    | unit u =>
      obtain _ | k := k
      · exact absurd (congrArg unit (Option.some_inj.1 hk).symm) ht
      · cases hk
    | lineBreak =>
      obtain _ | _ | k := k
      · rfl
      · exact absurd (Option.some_inj.1 hk) (by decide)
      · cases hk

/-- No place between tokens is in a line break. -/
theorem getLast?_spelled_ne {ts : List Token} (h : unit 0x0D ∉ ts) :
    (spelled spell ts).getLast? ≠ some 0x0D := by
  intro hlast
  obtain ⟨init, hinit⟩ := List.getLast?_eq_some_iff.1 hlast
  have := noBareReturn_spelled h init.length (by rw [hinit, List.getElem?_concat_length])
  rw [hinit, List.getElem?_eq_none (by simp)] at this
  cases this

/-! ## Offsets -/

theorem le_of_mem_crlfsFrom {t : Text} {i c : Nat} (h : c ∈ crlfsFrom i t) : i ≤ c := by
  induction t using tokens_induction generalizing i with
  | lineBreak t ih =>
    rw [crlfsFrom_lineBreak] at h
    rcases List.mem_cons.1 h with rfl | h
    · exact le_rfl
    · exact (Nat.le_add_right _ _).trans (ih h)
  | unit u t hne ih =>
    rw [crlfsFrom_unit hne] at h
    exact (Nat.le_add_right _ _).trans (ih h)
  | nil => cases h

/-- The line breaks before a place are what its offset has more than its tokens. -/
theorem length_withoutCrs {t : Text} {k : Nat} (i : Nat) (hk : k ≤ (tokens t).length) :
    ((crlfsFrom i t).takeWhile fun (c : Nat) =>
      decide ((c : Int) < (i + offset spell (tokens t) k : Nat))).length + k =
        offset spell (tokens t) k := by
  induction t using tokens_induction generalizing i k with
  | lineBreak t ih =>
    rw [tokens_lineBreak, List.length_cons] at hk
    rw [crlfsFrom_lineBreak, tokens_lineBreak]
    obtain _ | k := k
    · rw [offset_zero, List.takeWhile_cons_of_neg (by simp)]
      rfl
    · have ih := ih (i + 2) (Nat.le_of_succ_le_succ hk)
      have hlt : decide ((i : Int) < (i + (2 + offset spell (tokens t) k) : Nat)) = true :=
        decide_eq_true (by omega)
      rw [offset_succ, show (spell lineBreak).length = 2 from rfl, List.takeWhile_cons, if_pos hlt,
        List.length_cons, ← Nat.add_assoc i]
      omega
  | unit u t hne ih =>
    rw [tokens_unit hne, List.length_cons] at hk
    rw [crlfsFrom_unit hne, tokens_unit hne]
    obtain _ | k := k
    · rw [offset_zero]
      cases hc : crlfsFrom (i + 1) t with
      | nil => rfl
      | cons c rest =>
        have := le_of_mem_crlfsFrom (hc ▸ List.mem_cons_self : c ∈ crlfsFrom (i + 1) t)
        rw [List.takeWhile_cons_of_neg (by simp; omega)]
        rfl
    · have ih := ih (i + 1) (Nat.le_of_succ_le_succ hk)
      rw [offset_succ, show (spell (unit u)).length = 1 from rfl, ← Nat.add_assoc i]
      omega
  | nil =>
    obtain rfl := Nat.le_zero.1 hk
    rfl

/-- The place of a token loses one unit for each CRLF before it. -/
theorem withoutCrs_eq {t : Text} {k : Nat} (hk : k ≤ (tokens t).length) :
    withoutCrs (crlfs t) (offset spell (tokens t) k : Nat) = k := by
  have h := length_withoutCrs 0 hk
  rw [withoutCrs, crlfs]
  simp only [Nat.zero_add] at h
  omega

/-- The same in the other direction: a line break is before a place if its token is. -/
theorem length_withCrs {t : Text} {j : Nat} (i m : Nat) {k : Nat} (hk : k - i = j)
    (hj : j ≤ (tokens t).length) :
    (((crlfsFrom (i + m) t).zipIdx m).takeWhile fun ((c, n) : Nat × Nat) =>
      decide ((c : Int) - n < k)).length + j = offset spell (tokens t) j := by
  induction t using tokens_induction generalizing i m j with
  | lineBreak t ih =>
    rw [tokens_lineBreak, List.length_cons] at hj
    rw [crlfsFrom_lineBreak, tokens_lineBreak, List.zipIdx_cons]
    obtain _ | j := j
    · rw [offset_zero, List.takeWhile_cons_of_neg (by simp; omega)]
      rfl
    · have ih := ih (i + 1) (m + 1) (by omega) (Nat.le_of_succ_le_succ hj)
      rw [show i + 1 + (m + 1) = i + m + 2 by omega] at ih
      have hlt : decide (((i + m : Nat) : Int) - m < k) = true := decide_eq_true (by omega)
      rw [offset_succ, show (spell lineBreak).length = 2 from rfl, List.takeWhile_cons, if_pos hlt,
        List.length_cons]
      omega
  | unit u t hne ih =>
    rw [tokens_unit hne, List.length_cons] at hj
    rw [crlfsFrom_unit hne, tokens_unit hne]
    obtain _ | j := j
    · have ih := @ih 0 (i + 1) m (by omega) (Nat.zero_le _)
      rw [show i + 1 + m = i + m + 1 by omega, offset_zero] at ih
      rw [offset_zero]
      exact ih
    · have ih := ih (i + 1) m (by omega) (Nat.le_of_succ_le_succ hj)
      rw [show i + 1 + m = i + m + 1 by omega] at ih
      rw [offset_succ, show (spell (unit u)).length = 1 from rfl]
      omega
  | nil =>
    obtain rfl := Nat.le_zero.1 hj
    rfl

/-- The place of a token gains one unit for each CRLF before it. -/
theorem withCrs_eq {t : Text} {k : Nat} (hk : k ≤ (tokens t).length) :
    withCrs (crlfs t) k = (offset spell (tokens t) k : Nat) := by
  have h := length_withCrs 0 0 (Nat.sub_zero k) hk
  rw [withCrs, crlfs, ← h]
  push_cast
  omega

/-- A place that is in no line break is between two tokens. -/
theorem exists_offset {t : Text} {x : Nat} (hx : x ≤ t.length)
    (h : ∀ y, x = y + 1 → t[y]? = some 0x0D → t[y + 1]? ≠ some 0x0A) :
    ∃ k ≤ (tokens t).length, x = offset spell (tokens t) k := by
  induction t using tokens_induction generalizing x with
  | lineBreak t ih =>
    rw [tokens_lineBreak]
    obtain _ | _ | x := x
    · exact ⟨0, Nat.zero_le _, (offset_zero _).symm⟩
    · exact absurd rfl (h 0 rfl rfl)
    · obtain ⟨k, hk, hxk⟩ := ih (Nat.le_of_succ_le_succ (Nat.le_of_succ_le_succ hx))
        fun y hy hy' => h (y + 2) (by omega) hy'
      refine ⟨k + 1, Nat.succ_le_succ hk, ?_⟩
      rw [offset_succ, ← hxk, show (spell lineBreak).length = 2 from rfl]
      omega
  | unit u t hne ih =>
    rw [tokens_unit hne]
    obtain _ | x := x
    · exact ⟨0, Nat.zero_le _, (offset_zero _).symm⟩
    · obtain ⟨k, hk, hxk⟩ := ih (Nat.le_of_succ_le_succ hx)
        fun y hy hy' => h (y + 1) (by omega) hy'
      refine ⟨k + 1, Nat.succ_le_succ hk, ?_⟩
      rw [offset_succ, ← hxk, show (spell (unit u)).length = 1 from rfl]
      omega
  | nil =>
    obtain rfl := Nat.le_zero.1 hx
    exact ⟨0, Nat.zero_le _, (offset_zero _).symm⟩

/-! ## Values in either coordinates -/

/-- A selection with its offsets mapped. -/
def mapSelection (f : Int → Int) (s : TextSelection) : TextSelection :=
  { s with baseOffset := f s.baseOffset, extentOffset := f s.extentOffset }

/-- A range with its offsets mapped, if it is one. -/
def mapRange (f : Int → Int) (r : TextRange) : TextRange :=
  if r.isValid then ⟨f r.start, f r.stop⟩ else .empty

variable {ctx : InputContext} {v : TextEditingValue}

/-- Without a CRLF, the tokens are the units. -/
theorem tokens_of_crlfs_nil {t : Text} (h : crlfs t = []) : tokens t = t.map unit := by
  suffices hfrom : ∀ i, crlfsFrom i t = [] → tokens t = t.map unit from hfrom 0 h
  intro i
  clear h
  induction t using tokens_induction generalizing i with
  | lineBreak t ih =>
    rw [crlfsFrom_lineBreak]
    exact fun h => (by cases h)
  | unit u t hne ih =>
    rw [crlfsFrom_unit hne, tokens_unit hne]
    exact fun h => congrArg (unit u :: ·) (ih _ h)
  | nil => exact fun _ => rfl

theorem map_feed_unit (t : Text) : (t.map unit).map feed = t := by
  rw [List.map_map, show feed ∘ unit = id from rfl, List.map_id]

theorem feeds_of_crlfs_nil {t : Text} (h : crlfs t = []) : feeds t = t := by
  rw [feeds_eq, tokens_of_crlfs_nil h, map_feed_unit]

/-- What the platform is sent, with line breaks or without. -/
theorem value_eq (ctx : InputContext) : ctx.value =
    { text := feeds ctx.window
      selection := mapSelection (fun o => withoutCrs (crlfs ctx.window) (o - ctx.start))
        ctx.source.selection
      composing := mapRange (fun o => withoutCrs (crlfs ctx.window) (o - ctx.start))
        ctx.source.composing } := by
  rw [value]
  dsimp only
  split
  · next h =>
    rw [List.isEmpty_iff] at h
    have hzero : ∀ o : Int, withoutCrs [] (o - ctx.start) = o + -ctx.start := fun o => by
      rw [withoutCrs, List.takeWhile_nil, List.length_nil]
      omega
    rw [feeds_of_crlfs_nil h, moveSelection, moveRange, h]
    simp only [mapSelection, mapRange, hzero]
  · rfl

end InputContext

namespace Text

/-- An offset is between the two units of a line break. -/
def InBreak (t : Text) (o : Int) : Prop :=
  ∃ k : Nat, o = (k + 1 : Nat) ∧ t[k]? = some 0x0D ∧ t[k + 1]? = some 0x0A

end Text

/-- The selection and the composing range lie within the text. -/
structure TextEditingValue.Lies (v : TextEditingValue) : Prop where
  base : 0 ≤ v.selection.baseOffset ∧ v.selection.baseOffset ≤ v.text.length
  extent : 0 ≤ v.selection.extentOffset ∧ v.selection.extentOffset ≤ v.text.length
  composing : v.composing.isValid = true →
    v.composing.start ≤ v.text.length ∧ v.composing.stop ≤ v.text.length
  none : v.composing.isValid = false → v.composing = .empty

namespace InputContext

open Token Tokens

/-- An offset in the window that is in no line break. -/
def Place (ctx : InputContext) (o : Int) : Prop :=
  ctx.start ≤ o ∧ o ≤ ctx.stop ∧ ¬ctx.source.text.InBreak o

/-- The window is one of a source without bare carriage returns, holds the selection and the
    composing range, and no end of the three is in a line break. -/
structure Frames (ctx : InputContext) : Prop where
  text : ctx.source.text.NoBareReturn
  start : 0 ≤ ctx.start
  ordered : ctx.start ≤ ctx.stop
  stop : ctx.stop ≤ ctx.source.text.length
  startWhole : ¬ctx.source.text.InBreak ctx.start
  stopWhole : ¬ctx.source.text.InBreak ctx.stop
  base : ctx.Place ctx.source.selection.baseOffset
  extent : ctx.Place ctx.source.selection.extentOffset
  composing : ctx.source.composing.isValid = true →
    ctx.Place ctx.source.composing.start ∧ ctx.Place ctx.source.composing.stop
  none : ctx.source.composing.isValid = false → ctx.source.composing = .empty

variable {ctx : InputContext} {v : TextEditingValue}

/-- The tokens of the window. -/
def tokensOf (ctx : InputContext) : List Token := tokens ctx.window

/-- The source offset of a place between the tokens of a window that starts there. -/
def placed (start : Int) (ts : List Token) (o : Int) : Int := start + offset spell ts o.toNat

theorem spelled_tokensOf (ctx : InputContext) : spelled spell ctx.tokensOf = ctx.window :=
  spelled_tokens _

/-- The window is read in the source. -/
theorem getElem?_window {k : Nat} (hk : (k : Int) < ctx.stop - ctx.start) :
    ctx.window[k]? = ctx.source.text[ctx.start.toNat + k]? := by
  rw [window, Text.substring, List.getElem?_take, if_pos (by omega), List.getElem?_drop]

section

variable (h : ctx.Frames)

include h

theorem Frames.length_window : (ctx.window.length : Int) = ctx.stop - ctx.start := by
  rw [window, Text.length_substring h.start h.stop]
  have := h.ordered
  omega

/-- The source is the window with what is around it. -/
theorem Frames.source_eq : ctx.source.text.take ctx.start.toNat ++
    (ctx.window ++ ctx.source.text.drop ctx.stop.toNat) = ctx.source.text := by
  have hstart := h.start
  have hle := h.ordered
  have hdrop : ctx.source.text.drop ctx.stop.toNat =
      (ctx.source.text.drop ctx.start.toNat).drop (ctx.stop - ctx.start).toNat := by
    rw [List.drop_drop]
    congr 1
    omega
  rw [window, Text.substring, hdrop, List.take_append_drop, List.take_append_drop]

/-- The window has no bare carriage return: what follows one in the source is in the window. -/
theorem Frames.noBareReturn : ctx.window.NoBareReturn := by
  intro k hk
  have hstart := h.start
  have hlength := h.length_window
  have hlt := (List.getElem?_eq_some_iff.1 hk).1
  rw [getElem?_window (by omega)] at hk
  have hnext := h.text _ hk
  rcases Int.lt_or_le ((k + 1 : Nat) : Int) (ctx.stop - ctx.start) with hin | hout
  · rw [getElem?_window hin]
    exact hnext
  · exact absurd ⟨ctx.start.toNat + k, by omega, hk, hnext⟩ h.stopWhole

/-- A place of the window is the place of one of its tokens. -/
theorem Frames.exists_place {o : Int} (ho : ctx.Place o) :
    ∃ k ≤ ctx.tokensOf.length, o = ctx.start + offset spell ctx.tokensOf k := by
  obtain ⟨hle, hle', hwhole⟩ := ho
  have hstart := h.start
  have hlength := h.length_window
  obtain ⟨k, hk, heq⟩ := @exists_offset ctx.window (o - ctx.start).toNat (by omega)
    fun y hy hcr hlf => by
      have hlt := (List.getElem?_eq_some_iff.1 hlf).1
      rw [getElem?_window (by omega)] at hcr hlf
      exact hwhole ⟨ctx.start.toNat + y, by omega, hcr, hlf⟩
  refine ⟨k, hk, ?_⟩
  rw [tokensOf, ← heq]
  omega

end

/-! ## The span that changed -/

section

variable {sent next : Text} {selection moved : TextSelection} {selectionStart selectionEnd : Int}

/-- What is sent with a stretch deleted agrees with the value on both sides of it. -/
theorem deletes_spec {removed start : Int} (h : deletes sent next removed start = true)
    (hremoved : 0 < removed) (hlength : (next.length : Int) = sent.length - removed) :
    Agree sent next start.toNat (sent.length - start - removed).toNat := by
  rw [deletes] at h
  simp only [Bool.and_eq_true, decide_eq_true_eq, List.isSuffixOf_iff_suffix] at h
  obtain ⟨⟨⟨hstart, hstop⟩, hbefore⟩, hbehind⟩ := h
  rw [Text.startsWith, Text.substring, List.isPrefixOf_iff_prefix] at hbefore
  simp only [Int.toNat_zero, List.drop_zero, sub_zero] at hbefore
  rw [show (sent.length - start - removed).toNat = sent.length - (start + removed).toNat by omega]
  exact agree_of_affixes (by omega) (by omega) hbefore hbehind (by omega)

/-- What the platform was sent and what it has now agree before the span and behind it. -/
theorem changed_spec (hle : selectionStart ≤ selectionEnd) : Agree sent next
    (changed sent next selection moved selectionStart selectionEnd).1
    (changed sent next selection moved selectionStart selectionEnd).2 := by
  rw [changed]
  dsimp only
  split
  · next h =>
    simp only [Bool.and_eq_true, Bool.or_eq_true, decide_eq_true_eq, beq_iff_eq] at h
    obtain ⟨⟨⟨⟨-, hremoved⟩, -⟩, -⟩, ⟨hextent, hdeletes⟩ | ⟨hextent, hdeletes⟩⟩ := h
    · rw [hextent]
      exact deletes_spec hdeletes hremoved (by omega)
    · rw [hextent]
      exact deletes_spec hdeletes hremoved (by omega)
  · split
    · next h =>
      simp only [Bool.and_eq_true, decide_eq_true_eq, List.isSuffixOf_iff_suffix] at h
      obtain ⟨⟨⟨⟨⟨-, hstart⟩, hstop⟩, hlength⟩, hbefore⟩, hbehind⟩ := h
      rw [Text.startsWith, Text.substring, List.isPrefixOf_iff_prefix] at hbefore
      simp only [Int.toNat_zero, List.drop_zero, sub_zero] at hbefore
      have hasked : Agree sent next selectionStart.toNat (sent.length - selectionEnd).toNat := by
        rw [show (sent.length - selectionEnd).toNat = sent.length - selectionEnd.toNat by omega]
        exact agree_of_affixes (by omega) (by omega) hbefore hbehind (by omega)
      exact hasked.scanBefore.scanBehind
    · exact (agree_nil sent next).scanBefore.scanBehind

/-- The span that changed is as small as it can be where it is read. -/
theorem changed_tight : Tight sent next
    (changed sent next selection moved selectionStart selectionEnd).1
    (changed sent next selection moved selectionStart selectionEnd).2 := by
  rw [changed]
  dsimp only
  split
  · -- Of a deletion nothing is left in the text there is now.
    next h =>
    simp only [Bool.and_eq_true, Bool.or_eq_true, decide_eq_true_eq, beq_iff_eq] at h
    obtain ⟨⟨⟨⟨-, hremoved⟩, hcaret⟩, -⟩, ⟨hextent, hdeletes⟩ | ⟨hextent, hdeletes⟩⟩ := h
    · rw [deletes] at hdeletes
      simp only [Bool.and_eq_true, decide_eq_true_eq] at hdeletes
      exact tight_of_full (by omega)
    · rw [deletes] at hdeletes
      simp only [Bool.and_eq_true, decide_eq_true_eq] at hdeletes
      exact tight_of_full (by omega)
  · split
    · exact tight_scan sent next _ _
    · exact tight_scan sent next 0 0

end

/-- What was sent, unchanged, is read as the selection replaced by itself, and all of it is left
    as it is. -/
theorem changed_self {sent : Text} {selection moved : TextSelection} {k k' : Nat}
    (hvalid : selection.isValid = true) (hle : k ≤ k') (hk' : k' ≤ sent.length) :
    changed sent sent selection moved k k' = (k', sent.length - k') := by
  have hbefore : sent.startsWith (sent.substring 0 k) 0 = true := by
    rw [Text.startsWith, Text.substring, List.isPrefixOf_iff_prefix]
    exact List.take_prefix _ _
  have hbehind : (sent.drop (k' : Int).toNat).isSuffixOf sent = true := by
    rw [List.isSuffixOf_iff_suffix]
    exact List.drop_suffix _ _
  rw [changed, sub_self, decide_eq_false (lt_irrefl (0 : Int)), hvalid, hbefore, hbehind,
    decide_eq_true (Int.natCast_nonneg k), decide_eq_true (Int.ofNat_le.2 hk'),
    decide_eq_true (show (k : Int) + sent.length - k' ≤ sent.length by omega)]
  simp only [Bool.and_false, Bool.false_and, Bool.false_eq_true, Bool.and_self, if_false, if_true]
  rw [show ((sent.length : Int) - k').toNat = sent.length - k' by omega, Int.toNat_natCast,
    scanBefore_self (by omega), Nat.sub_sub_self hk', scanBehind_of_full (by omega)]

/-! ## Places of a text that is put in -/

/-- The tokens with the span that changed replaced. -/
def respelled (ts : List Token) (next : Text) (a s : Nat) : List Token :=
  splice ts a (ts.length - s) (((next.take (next.length - s)).drop a).map unit)

section

variable {ts : List Token} {next : Text} {a s : Nat}

theorem spelled_map_unit (t : Text) : spelled spell (t.map unit) = t := by
  induction t with
  | nil => rfl
  | cons u t ih => exact congrArg (u :: ·) ih

theorem offset_map_unit {t : Text} {k : Nat} (hk : k ≤ t.length) :
    offset spell (t.map unit) k = k := by
  rw [offset, ← List.map_take, spelled_map_unit, List.length_take, Nat.min_eq_left hk]

/-- Spelled anew, the window reads as the value. -/
theorem map_feed_respelled (h : Agree (ts.map feed) next a s) :
    (respelled ts next a s).map feed = next := by
  conv_rhs => rw [← h.take_append_drop]
  rw [respelled, splice, List.map_append, List.map_append, map_feed_unit, List.length_map,
    List.map_take, List.map_drop]

/-- Spelled anew, the window has no CR outside of a break. -/
theorem unit_notMem_respelled (hts : unit 0x0D ∉ ts) (hnext : 0x0D ∉ next) :
    unit 0x0D ∉ respelled ts next a s := by
  rw [respelled, splice, List.mem_append, List.mem_append, List.mem_map]
  rintro ((h | ⟨u, hu, heq⟩) | h)
  · exact hts (List.mem_of_mem_take h)
  · obtain rfl := Token.unit.inj heq
    exact hnext (List.mem_of_mem_take (List.mem_of_mem_drop hu))
  · exact hts (List.mem_of_mem_drop h)

end

/-- `full` is the offset among the tokens of the source proposed. -/
theorem fullOffset_eq {t next : Text} {a s : Nat} {o : Int}
    (h : Agree ((tokens t).map feed) next a s) (ho : 0 ≤ o) (ho' : o ≤ next.length) :
    fullOffset (crlfs t) (tokens t).length next.length a s o =
      (offset spell (respelled (tokens t) next a s) o.toNat : Nat) := by
  have hfits := h.fits
  have hfits' := h.fits'
  rw [List.length_map] at hfits
  have hpiece : (((next.take (next.length - s)).drop a).map unit).length = next.length - s - a := by
    rw [List.length_map, List.length_drop, List.length_take, Nat.min_eq_left (Nat.sub_le _ _)]
  have hunits : (((next.take (next.length - s)).drop a)).length = next.length - s - a := by
    rw [← hpiece, List.length_map]
  have hstart := withCrs_eq (show a ≤ (tokens t).length by omega)
  have hstop := withCrs_eq (Nat.sub_le (tokens t).length s)
  rw [Nat.cast_sub (by omega)] at hstop
  rw [fullOffset, respelled]
  split
  · obtain ⟨k, rfl⟩ := Int.eq_ofNat_of_zero_le ho
    rw [Int.toNat_natCast, offset_splice_before (by omega) (by omega), withCrs_eq (by omega)]
  · split
    · obtain ⟨k, hk⟩ : ∃ k : Nat, o = (a + k : Nat) := ⟨(o - a).toNat, by omega⟩
      rw [hk, Int.toNat_natCast, offset_splice_within (by omega) (by omega),
        offset_map_unit (by omega), hstart]
      push_cast
      omega
    · obtain ⟨k, hk⟩ : ∃ k : Nat, o = (a + (next.length - s - a) + k : Nat) :=
        ⟨(o - a - (next.length - s - a : Nat)).toNat, by omega⟩
      have hafter := @offset_splice_after _ _ spell (tokens t)
        (((next.take (next.length - s)).drop a).map unit) a ((tokens t).length - s) (by omega) k
      rw [hpiece, spelled_map_unit, hunits] at hafter
      have hplace : ((a + (next.length - s - a) + k : Nat) : Int) - a - (next.length - s - a) +
          (tokens t).length - s = ((tokens t).length - s + k : Nat) := by omega
      rw [hk, Int.toNat_natCast, hstart, hstop, hplace, withCrs_eq (by omega)]
      omega

/-! ## What is proposed -/

/-- What of a window's text is left as it is, at the front and at the back: nothing where it has
    no line break, else what is around the span that changed. -/
def spanOf (ctx : InputContext) (v : TextEditingValue) : Nat × Nat :=
  let crs := crlfs ctx.window
  if crs.isEmpty then (0, 0)
  else
    changed (feeds ctx.window) v.text ctx.source.selection v.selection
      (withoutCrs crs (ctx.source.selection.start - ctx.start))
      (withoutCrs crs (ctx.source.selection.stop - ctx.start))

/-- The tokens of the window that a value proposes. -/
def proposed (ctx : InputContext) (v : TextEditingValue) : List Token :=
  respelled ctx.tokensOf v.text (ctx.spanOf v).1 (ctx.spanOf v).2

/-- Two maps that agree on the ends of a selection take it to the same one. -/
theorem mapSelection_congr {f g : Int → Int} {s : TextSelection}
    (hbase : f s.baseOffset = g s.baseOffset) (hextent : f s.extentOffset = g s.extentOffset) :
    mapSelection f s = mapSelection g s := by
  rw [mapSelection, mapSelection, hbase, hextent]

/-- Two maps that agree on the ends of a range take it to the same one. -/
theorem mapRange_congr {f g : Int → Int} {r : TextRange}
    (h : r.isValid = true → f r.start = g r.start ∧ f r.stop = g r.stop) :
    mapRange f r = mapRange g r := by
  rw [mapRange, mapRange]
  split
  · next hr => rw [(h hr).1, (h hr).2]
  · rfl

theorem isValid_of_nonneg {r : TextRange} (h : 0 ≤ r.start) (h' : 0 ≤ r.stop) :
    r.isValid = true := by
  rw [TextRange.isValid, decide_eq_true h, decide_eq_true h', Bool.and_self]

theorem nonneg_of_isValid {r : TextRange} (h : r.isValid = true) : 0 ≤ r.start ∧ 0 ≤ r.stop := by
  rwa [TextRange.isValid, Bool.and_eq_true, decide_eq_true_eq, decide_eq_true_eq] at h

/-- A selection is brought back if its ends are. -/
theorem mapSelection_mapSelection {f g : Int → Int} {s : TextSelection}
    (hbase : g (f s.baseOffset) = s.baseOffset) (hextent : g (f s.extentOffset) = s.extentOffset) :
    mapSelection g (mapSelection f s) = s := by
  rw [mapSelection, mapSelection, hbase, hextent]

/-- A range is brought back if its ends are. -/
theorem mapRange_mapRange {f g : Int → Int} {r : TextRange}
    (hnone : r.isValid = false → r = .empty)
    (h : r.isValid = true → (0 ≤ f r.start ∧ 0 ≤ f r.stop) ∧
      g (f r.start) = r.start ∧ g (f r.stop) = r.stop) :
    mapRange g (mapRange f r) = r := by
  by_cases hr : r.isValid = true
  · obtain ⟨⟨hstart, hstop⟩, hstart', hstop'⟩ := h hr
    rw [mapRange, mapRange, if_pos hr, if_pos (isValid_of_nonneg hstart hstop), hstart', hstop']
  · rw [hnone (Bool.eq_false_of_not_eq_true hr)]
    rfl

/-- Values that lie within their texts agree where the offsets of one do. -/
theorem map_congr_of_lies {f g : Int → Int} (hv : v.Lies)
    (h : ∀ o : Int, 0 ≤ o → o ≤ v.text.length → f o = g o) :
    mapSelection f v.selection = mapSelection g v.selection ∧
      mapRange f v.composing = mapRange g v.composing := by
  refine ⟨mapSelection_congr (h _ hv.base.1 hv.base.2) (h _ hv.extent.1 hv.extent.2),
    mapRange_congr fun hr => ?_⟩
  obtain ⟨hstart, hstop⟩ := nonneg_of_isValid hr
  exact ⟨h _ hstart (hv.composing hr).1, h _ hstop (hv.composing hr).2⟩

section

variable (h : ctx.Frames)

include h

/-- Places keep their order without the CRs. -/
theorem Frames.withoutCrs_mono {o o' : Int} (ho : ctx.Place o) (ho' : ctx.Place o') (hle : o ≤ o') :
    withoutCrs (crlfs ctx.window) (o - ctx.start) ≤
      withoutCrs (crlfs ctx.window) (o' - ctx.start) := by
  obtain ⟨k, hk, rfl⟩ := h.exists_place ho
  obtain ⟨k', hk', rfl⟩ := h.exists_place ho'
  rw [add_sub_cancel_left, add_sub_cancel_left, tokensOf, withoutCrs_eq hk, withoutCrs_eq hk']
  by_contra hlt
  obtain ⟨j, rfl⟩ := Nat.exists_eq_add_of_lt (Int.ofNat_lt.1 (not_le.1 hlt))
  have := @add_le_offset _ _ spell ctx.tokensOf k' (j + 1) spell_ne_nil hk
  rw [show k' + (j + 1) = k' + j + 1 from rfl] at this
  omega

theorem Frames.start_place : ctx.Place ctx.source.selection.start := by
  rw [TextSelection.start]
  split
  · exact h.base
  · exact h.extent

theorem Frames.stop_place : ctx.Place ctx.source.selection.stop := by
  rw [TextSelection.stop]
  split
  · exact h.extent
  · exact h.base

/-- The value agrees with the window on both sides of the span that it changed. -/
theorem Frames.agree (v : TextEditingValue) :
    Agree (ctx.tokensOf.map feed) v.text (ctx.spanOf v).1 (ctx.spanOf v).2 := by
  rw [tokensOf, ← feeds_eq, spanOf]
  split
  · exact agree_nil _ _
  · exact changed_spec
      (h.withoutCrs_mono h.start_place h.stop_place ctx.source.selection.start_le_stop)

/-- What a value proposes: the span that it changed in the place of the span of the source, and
    its offsets among the tokens that makes. -/
theorem Frames.expand_eq (hv : v.Lies) : ctx.expand v = some
    { text := ctx.source.text.replaceRange
        (ctx.start + offset spell ctx.tokensOf (ctx.spanOf v).1).toNat
        (ctx.start + offset spell ctx.tokensOf (ctx.tokensOf.length - (ctx.spanOf v).2)).toNat
        ((v.text.take (v.text.length - (ctx.spanOf v).2)).drop (ctx.spanOf v).1)
      selection := mapSelection (placed ctx.start (ctx.proposed v)) v.selection
      composing := mapRange (placed ctx.start (ctx.proposed v)) v.composing } := by
  have hagree := h.agree v
  -- A value that lies has nothing to be refused for.
  have hguard : ¬(!v.selection.isValid || decide (v.text.length < v.selection.stop) ||
      (v.composing.isValid && decide (v.text.length < v.composing.stop))) = true := by
    have hbase := hv.base
    have hextent := hv.extent
    have hvalid : v.selection.isValid = true := by
      refine TextSelection.isValid_of_nonneg ?_
      rw [TextSelection.start]
      split <;> omega
    have hstop : ¬(v.text.length : Int) < v.selection.stop := by
      rw [TextSelection.stop]
      split <;> omega
    rw [hvalid, decide_eq_false hstop, Bool.not_true, Bool.false_or, Bool.false_or,
      Bool.and_eq_true, decide_eq_true_eq]
    rintro ⟨hr, hlt⟩
    exact absurd hlt (not_lt.2 (hv.composing hr).2)
  rw [expand, if_neg hguard]
  dsimp only
  split
  -- Without a CRLF the window goes in as a whole, as it was sent.
  · next hempty =>
    have hspan : ctx.spanOf v = (0, 0) := if_pos hempty
    obtain ⟨hselection, hcomposing⟩ := @map_congr_of_lies v (· + ctx.start)
      (placed ctx.start (ctx.proposed v)) hv fun o ho ho' => by
        obtain ⟨k, rfl⟩ := Int.eq_ofNat_of_zero_le ho
        have hwithin := @offset_splice_within _ _ spell ctx.tokensOf (v.text.map unit) 0
          ctx.tokensOf.length k (Nat.zero_le _) (by rw [List.length_map]; omega)
        rw [Nat.zero_add, offset_zero, Nat.zero_add, offset_map_unit (by omega)] at hwithin
        rw [placed, proposed, hspan, respelled, Nat.sub_zero, Nat.sub_zero, List.take_length,
          List.drop_zero, Int.toNat_natCast, hwithin]
        omega
    have hlength := h.length_window
    rw [← hselection, ← hcomposing, hspan, offset_zero, Nat.sub_zero, Nat.sub_zero,
      List.take_length, List.drop_zero, offset_of_length_le le_rfl, spelled_tokensOf,
      Nat.cast_zero, add_zero, hlength, add_sub_cancel]
    rfl
  · next hempty =>
    have hspan : ctx.spanOf v = changed (feeds ctx.window) v.text ctx.source.selection v.selection
        (withoutCrs (crlfs ctx.window) (ctx.source.selection.start - ctx.start))
        (withoutCrs (crlfs ctx.window) (ctx.source.selection.stop - ctx.start)) := if_neg hempty
    have hsent : (feeds ctx.window).length = ctx.tokensOf.length := by
      rw [feeds_eq, List.length_map, tokensOf]
    rw [← hspan, hsent]
    obtain ⟨hselection, hcomposing⟩ := @map_congr_of_lies v _
      (placed ctx.start (ctx.proposed v)) hv fun o ho ho' =>
        congrArg (ctx.start + ·) (fullOffset_eq hagree ho ho')
    rw [← hselection, ← hcomposing]
    have hfits := hagree.fits
    have hfits' := hagree.fits'
    rw [List.length_map] at hfits
    have hstart := withCrs_eq (show (ctx.spanOf v).1 ≤ (tokens ctx.window).length from
      (Nat.le_add_right _ _).trans hfits)
    have hstop := withCrs_eq (Nat.sub_le (tokens ctx.window).length (ctx.spanOf v).2)
    rw [← tokensOf, Nat.cast_sub (by omega)] at hstop
    rw [hstart, hstop, ← tokensOf]
    have hpiece : v.text.substring (ctx.spanOf v).1 ((ctx.spanOf v).1 +
        (v.text.length - (ctx.spanOf v).2 - (ctx.spanOf v).1)) =
          (v.text.take (v.text.length - (ctx.spanOf v).2)).drop (ctx.spanOf v).1 := by
      rw [Text.substring, List.drop_take, Int.toNat_natCast]
      congr 1
      omega
    rw [hpiece]
    rfl

/-- A range of the window, replaced in the source. -/
theorem Frames.replaceRange_window {x y : Nat} (hx : x ≤ ctx.window.length)
    (hy : y ≤ ctx.window.length) (piece : Text) :
    ctx.source.text.replaceRange (ctx.start + x).toNat (ctx.start + y).toNat piece =
      ctx.source.text.take ctx.start.toNat ++ (ctx.window.replaceRange x y piece ++
        ctx.source.text.drop ctx.stop.toNat) := by
  have hstart := h.start
  have hle := h.ordered
  have hstop := h.stop
  have hlength : (ctx.source.text.take ctx.start.toNat).length = ctx.start.toNat := by
    rw [List.length_take]
    omega
  have hright := @Text.replaceRange_append_right
    (ctx.window ++ ctx.source.text.drop ctx.stop.toNat) piece
    (ctx.source.text.take ctx.start.toNat) x y
  rw [hlength, h.source_eq] at hright
  rw [show (ctx.start + x).toNat = ctx.start.toNat + x by omega,
    show (ctx.start + y).toNat = ctx.start.toNat + y by omega, hright,
    Text.replaceRange_append_left hx hy]

/-- A place between tokens is in no line break of the source. -/
theorem Frames.not_inBreak {k : Nat} :
    ¬ctx.source.text.InBreak (ctx.start + offset spell ctx.tokensOf k) := by
  rintro ⟨j, hj, hcr, hlf⟩
  have hstart := h.start
  have hlength := h.length_window
  have hle := @offset_le _ _ spell ctx.tokensOf k
  rw [spelled_tokensOf] at hle
  obtain hzero | ⟨n, hn⟩ : offset spell ctx.tokensOf k = 0 ∨
      ∃ n, offset spell ctx.tokensOf k = n + 1 := by
    cases offset spell ctx.tokensOf k with
    | zero => exact Or.inl rfl
    | succ n => exact Or.inr ⟨n, rfl⟩
  · exact h.startWhole ⟨j, by omega, hcr, hlf⟩
  · -- The carriage return would be the last unit that a token spells.
    refine @getLast?_spelled_ne (ctx.tokensOf.take k)
      (fun hmem => unit_notMem_tokens h.noBareReturn (List.mem_of_mem_take hmem)) ?_
    rw [← take_offset, spelled_tokensOf, List.getLast?_take, hn, if_neg (Nat.succ_ne_zero n),
      Nat.add_sub_cancel, getElem?_window (by omega), show ctx.start.toNat + n = j by omega, hcr]
    rfl

/-- The source with the tokens between two places of the window replaced. -/
theorem Frames.respelled_text (next : Text) (a s : Nat) :
    ctx.source.text.replaceRange (ctx.start + offset spell ctx.tokensOf a).toNat
        (ctx.start + offset spell ctx.tokensOf (ctx.tokensOf.length - s)).toNat
        ((next.take (next.length - s)).drop a) =
      ctx.source.text.take ctx.start.toNat ++ (spelled spell (respelled ctx.tokensOf next a s) ++
        ctx.source.text.drop ctx.stop.toNat) := by
  have hle := @offset_le _ _ spell ctx.tokensOf
  rw [spelled_tokensOf] at hle
  rw [h.replaceRange_window (hle _) (hle _), respelled, spelled_splice, spelled_tokensOf,
    spelled_map_unit, Text.replaceRange]

/-- The source that a value proposes: the tokens proposed, in the place of the window. -/
theorem Frames.proposed_text (v : TextEditingValue) :
    ctx.source.text.replaceRange (ctx.start + offset spell ctx.tokensOf (ctx.spanOf v).1).toNat
        (ctx.start + offset spell ctx.tokensOf (ctx.tokensOf.length - (ctx.spanOf v).2)).toNat
        ((v.text.take (v.text.length - (ctx.spanOf v).2)).drop (ctx.spanOf v).1) =
      ctx.source.text.take ctx.start.toNat ++ (spelled spell (ctx.proposed v) ++
        ctx.source.text.drop ctx.stop.toNat) :=
  h.respelled_text v.text (ctx.spanOf v).1 (ctx.spanOf v).2

/-- A piece without a bare CR, put into the window, leaves the source without one. -/
theorem Frames.noBareReturn_around {t : Text} (ht : t.NoBareReturn) :
    Text.NoBareReturn (ctx.source.text.take ctx.start.toNat ++ (t ++
      ctx.source.text.drop ctx.stop.toNat)) := by
  have hstart := h.start
  refine noBareReturn_append (fun k hk => ?_) (noBareReturn_append ht fun k hk => ?_)
  · rw [List.getElem?_take] at hk
    split at hk
    · next hlt =>
      have hnext := h.text k hk
      rw [List.getElem?_take, if_pos, hnext]
      by_contra hge
      exact h.startWhole ⟨k, by omega, hk, hnext⟩
    · cases hk
  · rw [List.getElem?_drop] at hk ⊢
    exact h.text _ hk

/-- The window of a source that has a text in the place of the window. -/
theorem Frames.window_around {full : TextEditingValue} {t : Text}
    (hfull : full.text = ctx.source.text.take ctx.start.toNat ++ (t ++
      ctx.source.text.drop ctx.stop.toNat)) :
    window { source := full, start := ctx.start,
             stop := ctx.stop + (full.text.length - ctx.source.text.length) } = t := by
  have hstart := h.start
  have hle := h.ordered
  have hstop := h.stop
  have hbefore : (ctx.source.text.take ctx.start.toNat).length = ctx.start.toNat := by
    rw [List.length_take]
    omega
  rw [window, Text.substring]
  dsimp only
  rw [hfull, List.drop_left' hbefore, List.length_append, List.length_append, List.length_drop,
    hbefore]
  exact List.take_left' (by omega)

/-- What is proposed reads back as the value. -/
theorem Frames.value_proposed (hv : v.Lies) (hcr : 0x0D ∉ v.text) {full : TextEditingValue}
    (hfull : ctx.expand v = some full) :
    value { source := full, start := ctx.start,
            stop := ctx.stop + (full.text.length - ctx.source.text.length) } = v := by
  have hstart := h.start
  rw [h.expand_eq hv, h.proposed_text] at hfull
  have hwindow := @Frames.window_around _ h full (spelled spell (ctx.proposed v))
    (congrArg TextEditingValue.text (Option.some_inj.1 hfull)).symm
  have htokens : tokens (spelled spell (ctx.proposed v)) = ctx.proposed v :=
    tokens_spelled (unit_notMem_respelled (unit_notMem_tokens h.noBareReturn) hcr)
  have hfeeds : (ctx.proposed v).map feed = v.text := map_feed_respelled (h.agree v)
  have hlength : (ctx.proposed v).length = v.text.length := by
    rw [← hfeeds, List.length_map]
  -- An offset of the value comes back from its place among the tokens proposed.
  have hback : ∀ o : Int, 0 ≤ o → o ≤ v.text.length →
      withoutCrs (crlfs (spelled spell (ctx.proposed v)))
        (placed ctx.start (ctx.proposed v) o - ctx.start) = o := fun o ho ho' => by
    obtain ⟨k, rfl⟩ := Int.eq_ofNat_of_zero_le ho
    have hk := @withoutCrs_eq (spelled spell (ctx.proposed v)) k (by rw [htokens]; omega)
    rw [htokens] at hk
    rw [placed, Int.toNat_natCast, add_sub_cancel_left, hk]
  have hplaced : ∀ o : Int, 0 ≤ placed ctx.start (ctx.proposed v) o := fun o => by
    rw [placed]
    omega
  have hselection := @mapSelection_mapSelection (placed ctx.start (ctx.proposed v))
    (fun o => withoutCrs (crlfs (spelled spell (ctx.proposed v))) (o - ctx.start)) v.selection
    (hback _ hv.base.1 hv.base.2) (hback _ hv.extent.1 hv.extent.2)
  have hcomposing := @mapRange_mapRange (placed ctx.start (ctx.proposed v))
    (fun o => withoutCrs (crlfs (spelled spell (ctx.proposed v))) (o - ctx.start)) v.composing
    hv.none fun hr => ⟨⟨hplaced _, hplaced _⟩, hback _ (nonneg_of_isValid hr).1 (hv.composing hr).1,
      hback _ (nonneg_of_isValid hr).2 (hv.composing hr).2⟩
  have hfull := Option.some_inj.1 hfull
  rw [value_eq, hwindow, feeds_eq, htokens, hfeeds, ← hfull]
  dsimp only
  rw [hselection, hcomposing]

/-! ## What is sent -/

/-- What the platform is sent lies within its text. -/
theorem Frames.lies_value : ctx.value.Lies := by
  have hplace : ∀ {o : Int}, ctx.Place o → 0 ≤ withoutCrs (crlfs ctx.window) (o - ctx.start) ∧
      withoutCrs (crlfs ctx.window) (o - ctx.start) ≤ (feeds ctx.window).length := by
    intro o ho
    obtain ⟨k, hk, rfl⟩ := h.exists_place ho
    rw [add_sub_cancel_left, tokensOf, withoutCrs_eq hk, feeds_eq, List.length_map, ← tokensOf]
    omega
  rw [value_eq]
  refine ⟨hplace h.base, hplace h.extent, fun hr => ?_, fun hr => ?_⟩ <;>
    dsimp only [mapRange] at hr ⊢ <;> split at hr
  · next hc =>
    rw [if_pos hc]
    exact ⟨(hplace (h.composing hc).1).2, (hplace (h.composing hc).2).2⟩
  · cases hr
  · next hc =>
    rw [isValid_of_nonneg (hplace (h.composing hc).1).1 (hplace (h.composing hc).2).1] at hr
    cases hr
  · next hc => rw [if_neg hc]

/-- Of what the platform was sent, unchanged, all is left as it is. -/
theorem Frames.proposed_value : ctx.proposed ctx.value = ctx.tokensOf := by
  have htext : ctx.value.text = ctx.tokensOf.map feed := by rw [value_eq, feeds_eq, tokensOf]
  have hlength : (ctx.tokensOf.map feed).length = ctx.tokensOf.length := List.length_map _
  rw [proposed, spanOf, htext]
  split
  · next hempty =>
    have hunits : ctx.tokensOf = ctx.window.map unit :=
      tokens_of_crlfs_nil (List.isEmpty_iff.1 hempty)
    rw [hunits, map_feed_unit, respelled, splice]
    simp only [Nat.sub_zero, List.take_length, List.drop_length, List.drop_zero, List.take_zero,
      List.nil_append, List.append_nil]
  · -- The selection is read as replaced by itself, and nothing of it has changed.
    obtain ⟨k, hk, hstart⟩ := h.exists_place h.start_place
    obtain ⟨k', hk', hstop⟩ := h.exists_place h.stop_place
    have hmono := h.withoutCrs_mono h.start_place h.stop_place ctx.source.selection.start_le_stop
    rw [hstart, hstop, add_sub_cancel_left, add_sub_cancel_left, tokensOf, withoutCrs_eq hk,
      withoutCrs_eq hk'] at hmono
    have hvalid : ctx.source.selection.isValid = true := by
      refine TextSelection.isValid_of_nonneg ?_
      have := h.start
      omega
    have hself := @changed_self (ctx.tokensOf.map feed) ctx.source.selection ctx.value.selection
      k k' hvalid (Int.ofNat_le.1 hmono) (by rw [hlength]; exact hk')
    have hlocal := withoutCrs_eq hk
    have hlocal' := withoutCrs_eq hk'
    rw [← tokensOf] at hlocal hlocal'
    rw [hstart, hstop, add_sub_cancel_left, add_sub_cancel_left, feeds_eq, hlocal, hlocal',
      ← tokensOf, hself]
    dsimp only
    rw [hlength, respelled, Nat.sub_sub_self hk', hlength, Nat.sub_sub_self hk', splice,
      List.drop_eq_nil_of_le (List.length_take_le _ _), List.map_nil, List.append_nil,
      List.take_append_drop]

/-- A place sent in the value comes back as the place it was. -/
theorem Frames.placed_value {o : Int} (ho : ctx.Place o) :
    placed ctx.start ctx.tokensOf (withoutCrs (crlfs ctx.window) (o - ctx.start)) = o := by
  obtain ⟨k, hk, rfl⟩ := h.exists_place ho
  rw [add_sub_cancel_left, placed, tokensOf, withoutCrs_eq hk, Int.toNat_natCast]

/-- The platform's value comes back as the source. -/
theorem Frames.expand_value : ctx.expand ctx.value = some ctx.source := by
  have hnonneg : ∀ {o : Int}, ctx.Place o →
      0 ≤ withoutCrs (crlfs ctx.window) (o - ctx.start) := fun {o} ho => by
    obtain ⟨k, hk, rfl⟩ := h.exists_place ho
    rw [add_sub_cancel_left, tokensOf, withoutCrs_eq hk]
    exact Int.natCast_nonneg k
  have hselection := @mapSelection_mapSelection
    (fun o => withoutCrs (crlfs ctx.window) (o - ctx.start)) (placed ctx.start ctx.tokensOf)
    ctx.source.selection (h.placed_value h.base) (h.placed_value h.extent)
  have hcomposing := @mapRange_mapRange
    (fun o => withoutCrs (crlfs ctx.window) (o - ctx.start)) (placed ctx.start ctx.tokensOf)
    ctx.source.composing h.none fun hr =>
      ⟨⟨hnonneg (h.composing hr).1, hnonneg (h.composing hr).2⟩,
        h.placed_value (h.composing hr).1, h.placed_value (h.composing hr).2⟩
  rw [h.expand_eq h.lies_value, h.proposed_text, h.proposed_value, spelled_tokensOf, h.source_eq,
    value_eq]
  dsimp only
  rw [hselection, hcomposing]

omit h in
/-- The text sent is that of the tokens. -/
theorem value_text : ctx.value.text = ctx.tokensOf.map feed := by
  rw [value_eq, feeds_eq, tokensOf]

/-- The one span that a value changed, and the source that it is put in the place of. What is sent
    and the value agree before the span and behind it, and the span is as small as it can be; in a
    window with a line break it is the one that is looked for. -/
theorem Frames.exists_span (v : TextEditingValue) : ∃ a s : Nat,
    Agree ctx.value.text v.text a s ∧ Tight ctx.value.text v.text a s ∧
      (crlfs ctx.window ≠ [] → (a, s) = ctx.spanOf v) ∧
      spelled spell (respelled ctx.tokensOf v.text a s) = spelled spell (ctx.proposed v) := by
  by_cases hempty : crlfs ctx.window = []
  · -- Without a line break the whole window is replaced, which comes to the same.
    have hagree := (agree_nil ctx.value.text v.text).scanBefore.scanBehind
    refine ⟨_, _, hagree, tight_scan _ _ 0 0, fun hne => absurd hempty hne, ?_⟩
    have hunits : ctx.tokensOf = ctx.window.map unit := tokens_of_crlfs_nil hempty
    have hrespelled : ∀ {a s : Nat}, Agree ctx.value.text v.text a s →
        respelled ctx.tokensOf v.text a s = v.text.map unit := fun {a s} hagree => by
      rw [value_text, hunits, map_feed_unit] at hagree
      rw [hunits, respelled, splice, List.length_map, ← List.map_take, ← List.map_drop,
        ← List.map_append, ← List.map_append, hagree.take_append_drop]
    have hspan := h.agree v
    rw [← value_text] at hspan
    rw [hrespelled hagree, proposed, hrespelled hspan]
  · have hspan := h.agree v
    rw [← value_text] at hspan
    refine ⟨_, _, hspan, ?_, fun _ => rfl, rfl⟩
    rw [value_text, tokensOf, ← feeds_eq, spanOf, if_neg (mt List.isEmpty_iff.1 hempty)]
    exact changed_tight

/-- What is before a place of the source reads as what is sent before it. -/
theorem Frames.feeds_before (k : Nat) :
    feeds (ctx.source.text.substring ctx.start (ctx.start + offset spell ctx.tokensOf k)) =
      ctx.value.text.take k := by
  have hle := @offset_le _ _ spell ctx.tokensOf k
  rw [spelled_tokensOf] at hle
  have hlength := h.length_window
  have hwindow : ctx.source.text.substring ctx.start (ctx.start + offset spell ctx.tokensOf k) =
      ctx.window.take (offset spell ctx.tokensOf k) := by
    rw [window, Text.substring, Text.substring, List.take_take]
    congr 1
    omega
  have hplain : unit 0x0D ∉ ctx.tokensOf.take k := fun hmem =>
    unit_notMem_tokens h.noBareReturn (List.mem_of_mem_take hmem)
  rw [hwindow, ← spelled_tokensOf, take_offset, feeds_eq, tokens_spelled hplain, value_text,
    List.map_take]

/-- Nothing is lost on the way to the platform and back. What a value of the platform proposes is
    the source with the one span replaced that the value changed of the text sent, by what the value
    has there; so every line break outside it is as it was. And it reads back as that value. -/
theorem expand_spec : ctx.expand ctx.value = some ctx.source ∧
    ∀ v : TextEditingValue, v.Lies → 0x0D ∉ v.text → ∃ full, ctx.expand v = some full ∧
      full.text.NoBareReturn ∧
      (∃ a s : Nat, Agree ctx.value.text v.text a s ∧ Tight ctx.value.text v.text a s ∧
        (crlfs ctx.window ≠ [] → (a, s) = ctx.spanOf v) ∧
        ∃ start stop : Int, ctx.start ≤ start ∧ start ≤ stop ∧ stop ≤ ctx.stop ∧
          ¬ctx.source.text.InBreak start ∧ ¬ctx.source.text.InBreak stop ∧
          feeds (ctx.source.text.substring ctx.start start) = ctx.value.text.take a ∧
          feeds (ctx.source.text.substring ctx.start stop) =
            ctx.value.text.take (ctx.value.text.length - s) ∧
          full.text = ctx.source.text.replaceRange start.toNat stop.toNat
            ((v.text.take (v.text.length - s)).drop a)) ∧
      value { source := full, start := ctx.start,
              stop := ctx.stop + (full.text.length - ctx.source.text.length) } = v := by
  refine ⟨h.expand_value, fun v hv hcr => ⟨_, h.expand_eq hv, ?_, ?_, ?_⟩⟩
  · rw [h.proposed_text]
    exact h.noBareReturn_around (noBareReturn_spelled
      (unit_notMem_respelled (unit_notMem_tokens h.noBareReturn) hcr))
  · obtain ⟨a, s, hagree, htight, hspan, hsame⟩ := h.exists_span v
    refine ⟨a, s, hagree, htight, hspan, ctx.start + offset spell ctx.tokensOf a,
      ctx.start + offset spell ctx.tokensOf (ctx.tokensOf.length - s), ?_⟩
    have hfits := hagree.fits
    rw [value_text, List.length_map] at hfits
    have hmono := @offset_mono _ _ spell ctx.tokensOf a (ctx.tokensOf.length - s) (by omega)
    have hle := @offset_le _ _ spell ctx.tokensOf (ctx.tokensOf.length - s)
    rw [spelled_tokensOf] at hle
    have hlength := h.length_window
    refine ⟨by omega, by omega, by omega, h.not_inBreak, h.not_inBreak, h.feeds_before a, ?_, ?_⟩
    · rw [h.feeds_before, value_text, List.length_map]
    · rw [h.proposed_text, h.respelled_text, hsame]
  · exact h.value_proposed hv hcr (h.expand_eq hv)

end

/-- A document of CRLF lines, whole in the window, with the caret before the last line break. -/
def greek : InputContext where
  source := ⟨Text.ofString "alpha\r\n\r\nbeta\r\n", .collapsed 13, .empty⟩
  start := 0
  stop := 15

/-- A window into a text with CRLFs frames its source. -/
theorem greek_frames : greek.Frames := by
  have hplace : greek.Place 13 := by
    refine ⟨by decide, by decide, ?_⟩
    rintro ⟨k, hk, hcr, -⟩
    obtain rfl : k = 12 := by omega
    exact absurd hcr (by decide)
  refine ⟨Text.noBareReturn_of_validate (by decide +kernel), le_rfl, by decide, by decide +kernel,
    ?_, ?_, hplace, hplace, fun h => (by cases h), fun _ => rfl⟩
  · rintro ⟨k, hk, -⟩
    exact absurd hk (by simp only [greek]; omega)
  · rintro ⟨k, hk, hcr, -⟩
    obtain rfl : k = 14 := by simp only [greek] at hk; omega
    exact absurd hcr (by decide)

/-- A letter typed at the end of the line goes before its line break. -/
theorem expand_spec_greek : greek.expand greek.value = some greek.source ∧
    ∃ full, greek.expand ⟨Text.ofString "alpha\n\nbetaX\n", .collapsed 12, .empty⟩ = some full ∧
      full.text = Text.ofString "alpha\r\n\r\nbetaX\r\n" ∧ full.text.NoBareReturn := by
  obtain ⟨hvalue, hproposed⟩ := expand_spec greek_frames
  obtain ⟨full, hfull, hbare, -⟩ := hproposed
    ⟨Text.ofString "alpha\n\nbetaX\n", .collapsed 12, .empty⟩
    ⟨by decide, by decide, fun h => (by cases h), fun _ => rfl⟩ (by decide)
  refine ⟨hvalue, full, hfull, ?_, hbare⟩
  have hexpand : greek.expand ⟨Text.ofString "alpha\n\nbetaX\n", .collapsed 12, .empty⟩ =
      some ⟨Text.ofString "alpha\r\n\r\nbetaX\r\n", .collapsed 14, .empty⟩ := by decide
  rw [← Option.some_inj.1 (hexpand.symm.trans hfull)]

end InputContext

end Flark
