import Flark.CodeMirror.Highlight
import Flark.Lib.Matching

/-!
# Type arguments

Where the type arguments end that a `<` of a line opens (`_TypeArguments` of `highlight.dart`). They
are matched in one pass over the line, and kept for the line matched last, which is asked about for
each of its names.

* `TypeArguments.of`: what is kept for a line, matched anew for another line than the last one;
* `scanAhead`: the scan ahead of one `<` that the pass stands for;
* `typeArgumentEnds_eq`: the pass is a pass over brackets;
* `TypeArguments.after_of`: it finds what the scan finds, for each `<` of the line.
-/

namespace Flark

namespace CodeMirror

open Matching

/-! ## What is kept -/

/-- `_TypeArguments`, of lines that are objects: `line` is the one that was matched, whose units are
    `units line`. The constructor is private, and `of` alone calls it. -/
structure TypeArguments {ω : Type*} (units : ω → Text) where
  line : ω
  ends : List (Nat × Int)
  matched : ends = typeArgumentEnds 0 (units line) [] []

namespace TypeArguments

variable {ω : Type*} [DecidableEq ω] (units : ω → Text)

/-- `_TypeArguments.of`, with the `_last` before it and the one behind it. Two lines are identical
    when they are one object. -/
def of (last : Option (TypeArguments units)) (line : ω) :
    TypeArguments units × Option (TypeArguments units) :=
  let pass : TypeArguments units := ⟨line, typeArgumentEnds 0 (units line) [] [], rfl⟩
  match last with
  | none => (pass, some pass)
  | some last => if last.line = line then (last, some last) else (pass, some pass)

variable {units}

/-- `after`: throws where no `<` is. -/
def after (t : TypeArguments units) (open_ : Nat) : Option Int := t.ends.lookup open_

/-- `_calls`, with the `_last` before it and the one behind it. -/
def calls (last : Option (TypeArguments units)) (line : ω) (stop : Nat) :
    Option Bool × Option (TypeArguments units) :=
  let text := units line
  let i := pastBlanks text (text.length - stop) stop
  let opens : Int → Bool := fun i => i < text.length && text.codeUnitAt i == 0x28
  if i < text.length ∧ text.codeUnitAt i = 0x3C then
    let kept := of units last line
    ((kept.1.after i).map fun after => if after < 0 then false else opens after, kept.2)
  else (some (opens i), last)

end TypeArguments

/-! ## The scan ahead -/

/-- What a unit of a line does to the type arguments that are open. -/
def argumentPart (u : UInt16) : Part :=
  if u = 0x3C then .opens
  else if u = 0x3E then .closes
  else if u = 0x28 ∨ u = 0x3B ∨ u = 0x7B then .stops
  else .passes

/-- An end as `after` tells it. -/
def endOf : Option Nat → Int
  | none => -1
  | some stop => stop

/-- The scan that the pass stands for: ahead of the `<` at `open_`, with a depth of one behind it,
    up at each `<` and down at each `>`, to the one that brings it to zero. -/
def scanAhead (line : Text) (open_ : Nat) : Int :=
  endOf (scan argumentPart (open_ + 1) 1 (line.drop (open_ + 1)))

theorem endOf_eq_natCast {stop : Option Nat} {n : Nat} : endOf stop = n ↔ stop = some n := by
  cases stop with
  | none => simp [endOf]
  | some stop => rw [endOf, Int.natCast_inj, Option.some_inj]

theorem endOf_eq_neg_one {stop : Option Nat} : endOf stop = -1 ↔ stop = none := by
  cases stop with
  | none => simp [endOf]
  | some stop => simp [endOf]

section

variable {line : Text} {open_ : Nat}

/-- The scan ends behind the units that bring the depth to zero. -/
theorem scanAhead_eq_iff {n : Nat} : scanAhead line open_ = (open_ + 1 + n : Nat) ↔
    Returns argumentPart 1 (line.drop (open_ + 1)) n := by
  rw [scanAhead, endOf_eq_natCast, scan_eq_some_iff Nat.one_pos]
  constructor
  · rintro ⟨m, hm, h⟩
    rwa [Nat.add_left_cancel hm]
  · exact fun h => ⟨n, rfl, h⟩

/-- It finds no end where no units bring the depth to zero. -/
theorem scanAhead_eq_neg_one_iff : scanAhead line open_ = -1 ↔
    ∀ n, ¬Returns argumentPart 1 (line.drop (open_ + 1)) n := by
  rw [scanAhead, endOf_eq_neg_one, Option.eq_none_iff_forall_ne_some]
  constructor
  · exact fun h n hn => h _ ((scan_eq_some_iff Nat.one_pos).2 ⟨n, rfl, hn⟩)
  · intro h stop hstop
    obtain ⟨n, -, hn⟩ := (scan_eq_some_iff Nat.one_pos).1 hstop
    exact h n hn

end

/-! ## The pass -/

/-- The ends of a pass, as `_ends` holds them. -/
def endsOf (ends : List (Nat × Option Nat)) : List (Nat × Int) := ends.map (Prod.map id endOf)

theorem lookup_endsOf (ends : List (Nat × Option Nat)) (at_ : Nat) :
    (endsOf ends).lookup at_ = (ends.lookup at_).map endOf := by
  induction ends with
  | nil => rfl
  | cons e ends ih =>
    have hcons : endsOf (e :: ends) = (e.1, endOf e.2) :: endsOf ends := rfl
    rw [hcons, List.lookup_cons, List.lookup_cons, ih]
    cases at_ == e.1 <;> rfl

theorem endsOf_giveUp (s : State) :
    endsOf s.giveUp.ends = s.waiting.map (·, -1) ++ endsOf s.ends := by
  rw [State.giveUp, endsOf, List.map_append, List.map_map]
  rfl

/-- The pass over a line is a pass over brackets. -/
theorem typeArgumentEnds_eq (i : Nat) (line : Text) (s : State) :
    typeArgumentEnds i line s.waiting (endsOf s.ends) = endsOf (pass argumentPart i line s) := by
  induction line generalizing i s with
  | nil => exact (endsOf_giveUp s).symm
  | cons u rest ih =>
    have hread : pass argumentPart i (u :: rest) s =
        pass argumentPart (i + 1) rest (s.read i (argumentPart u)) := rfl
    rw [hread, ← ih, typeArgumentEnds.eq_def, argumentPart]
    dsimp only
    split_ifs
    · rfl
    · cases hw : s.waiting with
      | nil => simp only [State.read, hw]
      | cons at_ waiting =>
        simp only [State.read, hw]
        rfl
    · rw [State.read, endsOf_giveUp]
      rfl
    · rfl

/-- What is kept of a line tells for each `<` the end that the scan ahead finds. -/
theorem typeArgumentsAfter_eq {text : Text} {open_ : Nat} (h : text[open_]? = some 0x3C) :
    typeArgumentsAfter text open_ = some (scanAhead text open_) := by
  have hpass : typeArgumentEnds 0 text [] [] = endsOf (pass argumentPart 0 text {}) :=
    typeArgumentEnds_eq 0 text {}
  have hopens : text[open_]?.map argumentPart = some .opens := by
    rw [h]
    rfl
  rw [typeArgumentsAfter, hpass, lookup_endsOf, lookup_pass_opens hopens]
  rfl

/-! ## What is asked of a line -/

namespace TypeArguments

variable {ω : Type*} [DecidableEq ω] {units : ω → Text}

/-- Whichever line was matched last, what is kept for a line is what its pass found. -/
theorem after_eq (last : Option (TypeArguments units)) (line : ω) (open_ : Nat) :
    (of units last line).1.after open_ = typeArgumentsAfter (units line) open_ := by
  cases last with
  | none => rfl
  | some last =>
    rw [of]
    split_ifs with hline
    · rw [after, last.matched, hline]
      rfl
    · rfl

/-- For each `<` of a line, whichever line was matched last, there is an answer, and it is what a
    scan ahead of the `<` finds: the place behind the `>` that brings the depth from one to zero,
    where no stop comes first, and -1 where none does. -/
theorem after_of (last : Option (TypeArguments units)) (line : ω) {open_ : Nat}
    (h : (units line)[open_]? = some 0x3C) :
    ∃ after, (of units last line).1.after open_ = some after ∧
      after = scanAhead (units line) open_ ∧
      (∀ n : Nat, after = (open_ + 1 + n : Nat) ↔
        Returns argumentPart 1 ((units line).drop (open_ + 1)) n) ∧
      (after = -1 ↔ ∀ n, ¬Returns argumentPart 1 ((units line).drop (open_ + 1)) n) :=
  ⟨scanAhead (units line) open_, (after_eq last line open_).trans (typeArgumentsAfter_eq h), rfl,
    fun _ => scanAhead_eq_iff, scanAhead_eq_neg_one_iff⟩

/-- Another line of the same units was matched last, so that this one is matched anew. -/
theorem after_of_nested :
    (of Prod.snd (some (of Prod.snd none (0, Text.ofString "f<a<b>>(x)")).1)
      (1, Text.ofString "f<a<b>>(x)")).1.after 1 = some 7 := by
  obtain ⟨after, hafter, hscan, -, -⟩ := after_of
    (some (of Prod.snd none (0, Text.ofString "f<a<b>>(x)")).1) (1, Text.ofString "f<a<b>>(x)")
    (show (Text.ofString "f<a<b>>(x)")[1]? = some 0x3C by decide)
  rw [hafter, hscan]
  decide

end TypeArguments

/-! ## Calls -/

section

variable {line : Text} {start stop : Int} (h : 0 ≤ start ∧ start ≤ stop ∧ stop ≤ line.length)

include h

end

end CodeMirror

end Flark
