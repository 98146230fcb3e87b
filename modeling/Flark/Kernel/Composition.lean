import Flark.Kernel.Admission
import Flark.Kernel.Edits

/-!
# Composition

What a composition is retyped over when it commits (`kernel/composition.dart`). The platform edits
the text it composes in place; committing types the composed text again, over the range of the
source that it replaced: the smallest difference of the two sources that still holds the selection
the composition began in and the text that was composed.

* `Composed.after`: the range that holds the composed text, after each edit of the platform;
* `Composition.retypeEnds`: how much the two sources have in common at their ends;
* `Composition.retypeEnds_spec`: the range they leave is exact.
-/

namespace Flark

/-! ## Pairs -/

namespace Text

/-- Each half of a surrogate pair is beside the other. -/
def WellFormed (t : Text) : Prop :=
  isLowSurrogate (t.codeUnitAt 0) = false ∧
    ∀ i : Nat, isHighSurrogate (t.codeUnitAt i) = isLowSurrogate (t.codeUnitAt (i + 1 : Nat))

/-- An offset is between the halves of a pair. -/
def Splits (t : Text) (i : Nat) : Prop :=
  0 < i ∧ isHighSurrogate (t.codeUnitAt (i - 1 : Nat)) = true ∧ isLowSurrogate (t.codeUnitAt i) = true

end Text

/-- `low`: the unit at an offset is the second of a pair. -/
def low (t : Text) (i : Nat) : Bool :=
  decide (i < t.length) && (t.codeUnitAt i &&& 0xFC00 == 0xDC00)

/-- The mask of a surrogate keeps the upper six bits. -/
theorem land_mask {n : Nat} (hn : n < 2 ^ 16) : n &&& 0xFC00 = n / 2 ^ 10 * 2 ^ 10 := by
  refine Nat.eq_of_testBit_eq fun i => ?_
  rw [show 0xFC00 = (2 ^ 6 - 1) * 2 ^ 10 from rfl, Nat.testBit_and, Nat.testBit_mul_two_pow,
    Nat.testBit_two_pow_sub_one, Nat.testBit_mul_two_pow, Nat.testBit_div_two_pow]
  by_cases hi : 10 ≤ i
  · rw [decide_eq_true hi, Bool.true_and, Bool.true_and, Nat.sub_add_cancel hi]
    by_cases hi' : i - 10 < 6
    · rw [decide_eq_true hi', Bool.and_true]
    · rw [decide_eq_false hi', Bool.and_false, Nat.testBit_lt_two_pow]
      exact hn.trans_le (Nat.pow_le_pow_right (by decide) (by omega))
  · rw [decide_eq_false hi, Bool.false_and, Bool.and_false, Bool.false_and]

/-- The test by a mask is the one for a low surrogate. -/
theorem low_eq (t : Text) (i : Nat) : low t i = isLowSurrogate (t.codeUnitAt i) := by
  rw [low]
  by_cases hi : i < t.length
  · have hmask : (t.codeUnitAt i &&& 0xFC00).toNat = (t.codeUnitAt i).toNat / 2 ^ 10 * 2 ^ 10 := by
      rw [UInt16.toNat_and]
      exact land_mask (UInt16.toNat_lt _)
    rw [decide_eq_true hi, Bool.true_and, Bool.eq_iff_iff, beq_iff_eq, isLowSurrogate,
      Bool.and_eq_true, decide_eq_true_eq, decide_eq_true_eq, ← UInt16.toNat_inj, hmask,
      UInt16.le_iff_toNat_le, UInt16.le_iff_toNat_le]
    simp only [UInt16.reduceToNat]
    omega
  · rw [decide_eq_false hi, Bool.false_and, Text.codeUnitAt, Int.toNat_natCast,
      List.getD_eq_default _ _ (not_lt.1 hi)]
    rfl

/-- The second half of a pair is no first half. -/
theorem not_high_of_low {u : UInt16} (h : isLowSurrogate u = true) : isHighSurrogate u = false := by
  rw [isLowSurrogate, Bool.and_eq_true, decide_eq_true_eq] at h
  rw [isHighSurrogate, Bool.and_eq_false_iff]
  refine Or.inr (decide_eq_false fun hle => ?_)
  have := UInt16.le_iff_toNat_le.1 (UInt16.le_trans h.1 hle)
  exact absurd this (by decide)

namespace Text

variable {t : Text}

/-- In well-formed text a place splits a pair where a low surrogate follows. -/
theorem WellFormed.splits_iff (ht : t.WellFormed) {i : Nat} :
    t.Splits i ↔ isLowSurrogate (t.codeUnitAt i) = true := by
  refine ⟨fun h => h.2.2, fun h => ?_⟩
  cases i with
  | zero => exact absurd h (Bool.eq_false_iff.1 ht.1)
  | succ i => exact ⟨Nat.succ_pos i, (ht.2 i).trans h, h⟩

theorem not_splits_succ {i : Nat} (h : isLowSurrogate (t.codeUnitAt i) = true) :
    ¬t.Splits (i + 1) := fun h' =>
  Bool.eq_false_iff.1 (not_high_of_low h) h'.2.1

theorem wellFormed_nil : WellFormed [] := ⟨rfl, fun _ => rfl⟩

/-- A unit that is no surrogate goes on with well-formed text. -/
theorem WellFormed.cons {u : UInt16} (ht : t.WellFormed) (hhigh : isHighSurrogate u = false)
    (hlow : isLowSurrogate u = false) : WellFormed (u :: t) := by
  refine ⟨hlow, fun i => ?_⟩
  cases i with
  | zero => exact hhigh.trans ht.1.symm
  | succ i => exact ht.2 i

/-- A pair goes on with well-formed text. -/
theorem WellFormed.pair {u v : UInt16} (ht : t.WellFormed) (hhigh : isHighSurrogate u = true)
    (hlow : isLowSurrogate v = true) : WellFormed (u :: v :: t) := by
  refine ⟨?_, fun i => ?_⟩
  · refine Bool.eq_false_iff.2 fun h => ?_
    exact Bool.eq_false_iff.1 (not_high_of_low h) hhigh
  · cases i with
    | zero => exact hhigh.trans hlow.symm
    | succ i =>
      cases i with
      | zero => exact (not_high_of_low hlow).trans ht.1.symm
      | succ i => exact ht.2 i

/-- What an editor takes is well formed. -/
theorem wellFormed_of_validate (h : validateFlarkSource t = true) : t.WellFormed := by
  refine validate_induction wellFormed_nil (fun u v rest hhigh hlow ih => ?_)
    (fun u rest hhigh hlow _ ih => ?_) h
  · exact ih.pair hhigh hlow
  · exact ih.cons (Bool.eq_false_iff.2 hhigh) (Bool.eq_false_iff.2 hlow)

end Text

/-! ## The composed range -/

/-- `_composed`: the range of the source that holds the composed text, and whether it was composed
    in more than one place. -/
structure Composed where
  start : Int
  stop : Int
  apart : Bool
  deriving DecidableEq, Repr

/-- What `_compose` leaves in `_composed`, once the platform's edit is committed. `range` is what was
    there, `current` whether it was of the source that the edit was made to. -/
def Composed.after (range : Option Composed) (current : Bool) (from_ to_ : Int) (text : Text) :
    Composed :=
  match range with
  | none => ⟨from_, from_ + text.length, false⟩
  | some composed =>
    if current then
      let within := decide (composed.start ≤ from_) && decide (to_ ≤ composed.stop)
      let grown : Int := text.length - (to_ - from_)
      ⟨if from_ < composed.start then from_ else composed.start,
        (if composed.stop < to_ then to_ else composed.stop) + grown, composed.apart || !within⟩
    else ⟨from_, from_ + text.length, true⟩

/-! ## The retyped range -/

namespace Composition

section

variable (began now : Text) (at_ : Selection) (range : Option Composed)

/-- `head`: up to where the two sources may be taken to agree. `range` is the composed range, where
    it is that of `now`. -/
def head : Int :=
  match range with
  | none => at_.start
  | some r => if r.start < at_.start then r.start else at_.start

/-- `tail`: how much from the end on they may be taken to agree. -/
def tail : Int :=
  match range with
  | none => began.length - at_.stop
  | some r =>
    if now.length - r.stop < began.length - at_.stop then now.length - r.stop
    else began.length - at_.stop

/-- Where the scan from the start stops. -/
def scanStart : Nat :=
  Scan.upTo (fun a => decide (a < now.length) && Edits.sameAt began now a) (head at_ range).toNat 0

/-- How far from the end the other scan stops. -/
def scanEnd : Nat :=
  let a := scanStart began now at_ range
  Scan.upTo (fun b => decide (b < now.length - a) && decide (b < began.length - a) &&
    Edits.sameEnd began now b) (tail began now at_ range).toNat 0

/-- `a` and `b` of `_retypeComposition`: what the sources have in common before the text to retype
    and behind it, in whole code points. -/
def retypeEnds : Nat × Nat :=
  let a := scanStart began now at_ range
  let b := scanEnd began now at_ range
  (if 0 < a ∧ (low began a || low now a) then a - 1 else a,
    if 0 < b ∧ (low began (began.length - b) || low now (now.length - b)) then b - 1 else b)

end

section

variable {began now : Text} {at_ : Selection} {range : Option Composed}

/-- The common front is searched up to where the selection began. -/
theorem head_le_start : head at_ range ≤ at_.start := by
  rw [head.eq_def]
  split
  · exact le_rfl
  · split_ifs with hlt
    · exact hlt.le
    · exact le_rfl

/-- The common front is searched up to the composed range. -/
theorem head_le_range {r : Composed} (hr : r ∈ range) : head at_ range ≤ r.start := by
  obtain rfl := Option.mem_def.1 hr
  rw [head.eq_def]
  dsimp only
  split_ifs with hlt
  · exact le_rfl
  · exact not_lt.1 hlt

/-- The common back is searched down to where the selection ended. -/
theorem tail_le_stop : tail began now at_ range ≤ began.length - at_.stop := by
  rw [tail.eq_def]
  split
  · exact le_rfl
  · split_ifs with hlt
    · exact hlt.le
    · exact le_rfl

/-- The common back is searched down to the composed range. -/
theorem tail_le_range {r : Composed} (hr : r ∈ range) :
    tail began now at_ range ≤ now.length - r.stop := by
  obtain rfl := Option.mem_def.1 hr
  rw [tail.eq_def]
  dsimp only
  split_ifs with hlt
  · exact le_rfl
  · exact not_lt.1 hlt

theorem scanStart_le_head : scanStart began now at_ range ≤ (head at_ range).toNat := by
  have := Scan.upTo_le (fun a => decide (a < now.length) && Edits.sameAt began now a)
    (head at_ range).toNat 0
  rwa [Nat.zero_add] at this

theorem scanEnd_le_tail : scanEnd began now at_ range ≤ (tail began now at_ range).toNat := by
  have := Scan.upTo_le (fun b => decide (b < now.length - scanStart began now at_ range) &&
    decide (b < began.length - scanStart began now at_ range) && Edits.sameEnd began now b)
      (tail began now at_ range).toNat 0
  rwa [Nat.zero_add] at this

/-- What lies before the stop of the first scan is the same in both. -/
theorem scanStart_holds {i : Nat} (hi : i < scanStart began now at_ range) :
    i < now.length ∧ Edits.sameAt began now i = true := by
  have h := Scan.holds (Nat.zero_le i) hi
  rw [Bool.and_eq_true, decide_eq_true_eq] at h
  exact h

/-- The texts agree in what the search for their back went through. -/
theorem scanEnd_holds {i : Nat} (hi : i < scanEnd began now at_ range) :
    i < now.length - scanStart began now at_ range ∧
      i < began.length - scanStart began now at_ range ∧ Edits.sameEnd began now i = true := by
  have h := Scan.holds (Nat.zero_le i) hi
  rw [Bool.and_eq_true, Bool.and_eq_true, decide_eq_true_eq, decide_eq_true_eq, and_assoc] at h
  exact h

/-- The selection lies in the source the composition began in, and the composed range, where there
    is one, in the source now. -/
structure Inside (began now : Text) (at_ : Selection) (range : Option Composed) : Prop where
  base : 0 ≤ at_.base ∧ at_.base ≤ began.length
  extent : 0 ≤ at_.extent ∧ at_.extent ≤ began.length
  composed : ∀ r ∈ range, 0 ≤ r.start ∧ r.start ≤ now.length ∧ 0 ≤ r.stop ∧ r.stop ≤ now.length

variable (h : Inside began now at_ range)
include h

theorem Inside.stop_le : at_.start ≤ at_.stop ∧ at_.stop ≤ began.length := by
  have hbase := h.base.2
  have hextent := h.extent.2
  rw [Selection.start, Selection.stop]
  split_ifs <;> omega

/-- There is room for a common back. -/
theorem Inside.tail_nonneg : 0 ≤ tail began now at_ range := by
  have hstop := h.stop_le.2
  rw [tail.eq_def]
  split
  · omega
  · next r =>
    have hr := (h.composed r rfl).2.2.2
    split_ifs <;> omega

/-- There is room for a common front. -/
theorem Inside.head_nonneg : 0 ≤ head at_ range := by
  have hbase := h.base.1
  have hextent := h.extent.1
  have hstart : 0 ≤ at_.start := by
    rw [Selection.start]
    split_ifs <;> assumption
  rw [head.eq_def]
  split
  · exact hstart
  · next r =>
    split_ifs
    · exact (h.composed r rfl).1
    · exact hstart

/-- The common front is within both texts, in front of the selection and of the range. -/
theorem Inside.scanStart_le : scanStart began now at_ range ≤ began.length ∧
    scanStart began now at_ range ≤ now.length ∧
    (scanStart began now at_ range : Int) ≤ at_.start ∧
    ∀ r ∈ range, (scanStart began now at_ range : Int) ≤ r.start := by
  have hhead := h.head_nonneg
  have hle := @scanStart_le_head began now at_ range
  have hstart := @head_le_start at_ range
  have hbegan := h.stop_le.1.trans h.stop_le.2
  refine ⟨by omega, ?_, by omega, fun r hr => ?_⟩
  · refine not_lt.1 fun hlt => ?_
    exact absurd (scanStart_holds hlt).1 (lt_irrefl _)
  · have := @head_le_range at_ range r hr
    omega

/-- The common back is within what the front leaves, behind the selection and the range. -/
theorem Inside.scanEnd_le :
    scanStart began now at_ range + scanEnd began now at_ range ≤ began.length ∧
    scanStart began now at_ range + scanEnd began now at_ range ≤ now.length ∧
    at_.stop ≤ began.length - scanEnd began now at_ range ∧
    ∀ r ∈ range, r.stop ≤ now.length - scanEnd began now at_ range := by
  obtain ⟨hbegan, hnow, -⟩ := h.scanStart_le
  have hle := @scanEnd_le_tail began now at_ range
  have hstop := @tail_le_stop began now at_ range
  have hlength := h.stop_le.2
  have hlast : scanEnd began now at_ range = 0 ∨
      scanEnd began now at_ range - 1 < scanEnd began now at_ range := by omega
  have hbounds : scanEnd began now at_ range ≤ now.length - scanStart began now at_ range ∧
      scanEnd began now at_ range ≤ began.length - scanStart began now at_ range := by
    rcases hlast with hzero | hlt
    · omega
    · obtain ⟨hlt', hlt'', -⟩ := scanEnd_holds hlt
      omega
  refine ⟨by omega, by omega, ?_, fun r hr => ?_⟩
  · omega
  · have := @tail_le_range began now at_ range r hr
    have hr' := (h.composed r hr).2.2.2
    omega

omit h

/-- The step back to a whole code point at the start. -/
theorem retypeEnds_fst : (retypeEnds began now at_ range).1 = scanStart began now at_ range ∨
    (retypeEnds began now at_ range).1 + 1 = scanStart began now at_ range ∧
      (low began (scanStart began now at_ range) = true ∨
        low now (scanStart began now at_ range) = true) := by
  rw [retypeEnds]
  dsimp only
  split_ifs with hlow
  · rw [Bool.or_eq_true] at hlow
    exact Or.inr ⟨Nat.sub_add_cancel hlow.1, hlow.2⟩
  · exact Or.inl rfl

/-- The back is cut where the search stopped, or a unit later where a pair would be split. -/
theorem retypeEnds_snd : (retypeEnds began now at_ range).2 = scanEnd began now at_ range ∨
    (retypeEnds began now at_ range).2 + 1 = scanEnd began now at_ range ∧
      (low began (began.length - scanEnd began now at_ range) = true ∨
        low now (now.length - scanEnd began now at_ range) = true) := by
  rw [retypeEnds]
  dsimp only
  split_ifs with hlow
  · rw [Bool.or_eq_true] at hlow
    exact Or.inr ⟨Nat.sub_add_cancel hlow.1, hlow.2⟩
  · exact Or.inl rfl

/-- The start splits no pair: stepped back, it is before the first half of one, which both texts
    have there. -/
theorem not_splits_retypeEnds_fst (hbegan : began.WellFormed) (hnow : now.WellFormed) :
    ¬began.Splits (retypeEnds began now at_ range).1 ∧
      ¬now.Splits (retypeEnds began now at_ range).1 := by
  rw [retypeEnds]
  dsimp only
  split_ifs with hlow
  · obtain ⟨k, hk⟩ := Nat.exists_eq_add_of_lt hlow.1
    rw [Nat.zero_add] at hk
    have hlast : k < scanStart began now at_ range := by omega
    have hsame := eq_of_beq (scanStart_holds hlast).2
    rw [hk, Bool.or_eq_true, low_eq, low_eq] at hlow
    rw [hk, Nat.add_sub_cancel]
    have hhigh : isHighSurrogate (began.codeUnitAt k) = true := by
      rcases hlow.2 with hlow | hlow
      · exact (hbegan.2 k).trans hlow
      · rw [hsame]
        exact (hnow.2 k).trans hlow
    refine ⟨fun hsplits => ?_, fun hsplits => ?_⟩
    · exact Bool.eq_false_iff.1 (not_high_of_low hsplits.2.2) hhigh
    · rw [hsame] at hhigh
      exact Bool.eq_false_iff.1 (not_high_of_low hsplits.2.2) hhigh
  · rw [Bool.or_eq_true, low_eq, low_eq, not_and_or, not_or] at hlow
    rcases hlow with hzero | ⟨hbegan', hnow'⟩
    · exact ⟨fun hsplits => hzero hsplits.1, fun hsplits => hzero hsplits.1⟩
    · exact ⟨fun hsplits => hbegan' hsplits.2.2, fun hsplits => hnow' hsplits.2.2⟩

/-- The end of a text splits nothing. -/
theorem not_splits_length (t : Text) : ¬t.Splits t.length := fun h => by
  have hlow := h.2.2
  rw [Text.codeUnitAt, Int.toNat_natCast, List.getD_eq_default _ _ le_rfl] at hlow
  exact absurd hlow (by decide)

/-- Nor does the end: stepped back, it is behind the second half of one, which both texts have. -/
theorem Inside.not_splits_retypeEnds_snd (h : Inside began now at_ range) :
    ¬began.Splits (began.length - (retypeEnds began now at_ range).2) ∧
      ¬now.Splits (now.length - (retypeEnds began now at_ range).2) := by
  obtain ⟨hbegan, hnow, -⟩ := h.scanEnd_le
  rw [retypeEnds]
  dsimp only
  split_ifs with hlow
  · obtain ⟨k, hk⟩ := Nat.exists_eq_add_of_lt hlow.1
    rw [Nat.zero_add] at hk
    have hlast : k < scanEnd began now at_ range := by omega
    have hsame := eq_of_beq (scanEnd_holds hlast).2.2
    rw [Bool.or_eq_true, low_eq, low_eq] at hlow
    rw [show began.length - 1 - k = began.length - scanEnd began now at_ range by omega,
      show now.length - 1 - k = now.length - scanEnd began now at_ range by omega] at hsame
    rw [show began.length - (scanEnd began now at_ range - 1) =
        began.length - scanEnd began now at_ range + 1 by omega,
      show now.length - (scanEnd began now at_ range - 1) =
        now.length - scanEnd began now at_ range + 1 by omega]
    rw [hsame, or_self] at hlow
    exact ⟨Text.not_splits_succ (by rw [hsame]; exact hlow.2), Text.not_splits_succ hlow.2⟩
  · rw [Bool.or_eq_true, low_eq, low_eq, not_and_or, not_or] at hlow
    rcases hlow with hzero | ⟨hbegan', hnow'⟩
    · rw [Nat.eq_zero_of_not_pos hzero]
      exact ⟨not_splits_length began, not_splits_length now⟩
    · exact ⟨fun hsplits => hbegan' hsplits.2.2, fun hsplits => hnow' hsplits.2.2⟩

/-- Where the first scan stops short of `head`, the two sources differ. -/
theorem Inside.scanStart_differs (h : Inside began now at_ range) :
    (scanStart began now at_ range : Int) = head at_ range ∨
      began[scanStart began now at_ range]? ≠ now[scanStart began now at_ range]? := by
  have hle := @scanStart_le_head began now at_ range
  have hhead := @head_le_start at_ range
  have hlength := h.stop_le.1.trans h.stop_le.2
  refine or_iff_not_imp_left.2 fun hne heq => ?_
  have hnonneg := h.head_nonneg
  have hfails : (decide (scanStart began now at_ range < now.length) &&
      Edits.sameAt began now (scanStart began now at_ range)) = false :=
    Scan.fails (show scanStart began now at_ range < 0 + (head at_ range).toNat by omega)
  have hbegan : scanStart began now at_ range < began.length := by omega
  have hnow : scanStart began now at_ range < now.length := by
    rw [List.getElem?_eq_getElem hbegan] at heq
    exact (List.getElem?_eq_some_iff.1 heq.symm).1
  rw [decide_eq_true hnow, Bool.true_and] at hfails
  refine absurd ?_ (Bool.eq_false_iff.1 hfails)
  exact (Edits.sameAt_iff hbegan hnow).2 heq

/-- Where the other stops short of `tail`, what is left of them differs, from the end. -/
theorem Inside.scanEnd_differs (h : Inside began now at_ range) :
    (scanEnd began now at_ range : Int) = tail began now at_ range ∨
      (began.drop (scanStart began now at_ range)).reverse[scanEnd began now at_ range]? ≠
        (now.drop (scanStart began now at_ range)).reverse[scanEnd began now at_ range]? := by
  have hle := @scanEnd_le_tail began now at_ range
  have htail := @tail_le_stop began now at_ range
  obtain ⟨-, -, hstart, -⟩ := h.scanStart_le
  have hstop := h.stop_le
  have hnonneg := h.tail_nonneg
  refine or_iff_not_imp_left.2 fun hne heq => ?_
  have hfails : (decide (scanEnd began now at_ range < now.length - scanStart began now at_ range) &&
      decide (scanEnd began now at_ range < began.length - scanStart began now at_ range) &&
        Edits.sameEnd began now (scanEnd began now at_ range)) = false :=
    Scan.fails (show scanEnd began now at_ range < 0 + (tail began now at_ range).toNat by omega)
  have hbegan : scanEnd began now at_ range < began.length - scanStart began now at_ range := by
    omega
  have hnow : scanEnd began now at_ range < now.length - scanStart began now at_ range := by
    refine not_le.1 fun hge => ?_
    rw [List.getElem?_eq_getElem (by rwa [List.length_reverse, List.length_drop]),
      List.getElem?_eq_none (by rwa [List.length_reverse, List.length_drop])] at heq
    exact absurd heq (Option.some_ne_none _)
  rw [decide_eq_true hnow, decide_eq_true hbegan, Bool.true_and, Bool.true_and] at hfails
  refine absurd ?_ (Bool.eq_false_iff.1 hfails)
  rw [List.getElem?_reverse (by rwa [List.length_drop]), List.getElem?_reverse
    (by rwa [List.length_drop]), List.length_drop, List.length_drop, List.getElem?_drop,
    List.getElem?_drop] at heq
  refine (Edits.sameEnd_iff (by omega) (by omega)).2 ?_
  convert heq using 2 <;> omega

/-- The range that the ends leave makes the source now of the one the composition began in. It holds
    the selection, and the composed range is in what replaces it. It goes further only up to where
    the two first and last differ, in whole code points, and splits no pair of either. -/
theorem retypeEnds_spec (hbegan : began.WellFormed) (hnow : now.WellFormed)
    (h : Inside began now at_ range) {a b : Nat} (hab : retypeEnds began now at_ range = (a, b)) :
    began.replaceRange a (began.length - b) (now.substring a (now.length - b : Nat)) = now ∧
      ((a : Int) ≤ at_.start ∧ at_.stop ≤ began.length - b) ∧
      (∃ first last : Nat,
        (a = first ∨ a + 1 = first ∧ (began.Splits first ∨ now.Splits first)) ∧
        ((first : Int) = head at_ range ∨ began[first]? ≠ now[first]?) ∧
        (b = last ∨ b + 1 = last ∧
          (began.Splits (began.length - last) ∨ now.Splits (now.length - last))) ∧
        ((last : Int) = tail began now at_ range ∨
          (began.drop first).reverse[last]? ≠ (now.drop first).reverse[last]?)) ∧
      (a + b ≤ began.length ∧ a + b ≤ now.length) ∧
      (¬began.Splits a ∧ ¬now.Splits a ∧ ¬began.Splits (began.length - b) ∧
        ¬now.Splits (now.length - b)) ∧
      ∀ r ∈ range, (a : Int) ≤ r.start ∧ r.stop ≤ now.length - b := by
  obtain rfl : (retypeEnds began now at_ range).1 = a := congrArg Prod.fst hab
  obtain rfl : (retypeEnds began now at_ range).2 = b := congrArg Prod.snd hab
  obtain ⟨-, -, hstart, hstart'⟩ := h.scanStart_le
  obtain ⟨hbegan', hnow', hstop, hstop'⟩ := h.scanEnd_le
  have hfst := @retypeEnds_fst began now at_ range
  have hsnd := @retypeEnds_snd began now at_ range
  have hle : (retypeEnds began now at_ range).1 ≤ scanStart began now at_ range := by omega
  have hle' : (retypeEnds began now at_ range).2 ≤ scanEnd began now at_ range := by omega
  obtain ⟨hsplits, hsplits'⟩ := @not_splits_retypeEnds_fst began now at_ range hbegan hnow
  obtain ⟨hends, hends'⟩ := h.not_splits_retypeEnds_snd
  refine ⟨?_, ⟨by omega, by omega⟩, ?_, ⟨by omega, by omega⟩,
    ⟨hsplits, hsplits', hends, hends'⟩, fun r hr => ?_⟩
  · refine Edits.replaceRange_eq ?_ (fun i hi => (scanStart_holds (hi.trans_le hle)).2)
      fun i hi => (scanEnd_holds (hi.trans_le hle')).2.2
    rw [Edits.shorter]
    split_ifs <;> omega
  · rw [low_eq, low_eq, ← hbegan.splits_iff, ← hnow.splits_iff] at hfst hsnd
    exact ⟨_, _, hfst, h.scanStart_differs, hsnd, h.scanEnd_differs⟩
  · have := hstart' r hr
    have := hstop' r hr
    omega

/-- Two smileys that differ in their second halves only are composed anew whole. -/
theorem retypeEnds_spec_smiley :
    let began := Text.ofString "a😀b"
    let now := Text.ofString "a😁b"
    began.replaceRange 1 3 (now.substring 1 3) = now ∧ ¬began.Splits 1 ∧ ¬now.Splits 3 := by
  intro began now
  have hbegan : began.WellFormed := Text.wellFormed_of_validate (by decide)
  have hnow : now.WellFormed := Text.wellFormed_of_validate (by decide)
  have hinside : Inside began now (.collapsed 3) none :=
    ⟨by decide, by decide, fun _ hr => absurd hr (Option.not_mem_none _)⟩
  obtain ⟨happly, -, -, -, ⟨hsplits, -, -, hends⟩, -⟩ :=
    retypeEnds_spec hbegan hnow hinside (show retypeEnds _ _ _ _ = (1, 1) by decide)
  exact ⟨happly, hsplits, hends⟩

end

end Composition

end Flark
