import Flark.Input.InputContext
import Flark.Lib.Agree

/-!
# The edit of a platform value

What a value of the platform changed of the current text (the difference that `_receive` of
`flark_flutter/lib/src/controller.dart` reads). Repeated characters admit several differences, so
the edit is read at the selection first, or as a deletion beside the caret; else it is what is
left between a common front and a common back. It is then widened to whole characters.

* `Receive.readings`: the differences asked for, in order;
* `Receive.received`: the range and the text in its place;
* `Receive.received_spec`: they make the received text of the current one.
-/

namespace Flark

namespace Receive

/-- A range of the current text, and where the text in its place ends in the received one; both
    start at one offset. -/
structure Difference where
  start : Nat
  stop : Nat
  nextStop : Nat
  deriving DecidableEq, Repr

/-- `atRange`: the difference that replaces a range, if there is one. -/
def atRange (before next : Text) (a b : Int) : Option Difference :=
  if a < 0 ∨ b < a ∨ (before.length : Int) < b then none
  else
    let count : Int := next.length - (before.length - (b - a))
    if count < 0 ∨ ¬(next.startsWith (before.substring 0 a) 0 &&
        (before.drop b.toNat).isSuffixOf next) then none
    else some ⟨a.toNat, b.toNat, (a + count).toNat⟩

/-- The differences read at the selection: its replacement, or a deletion before or behind a
    caret that the received caret is at. -/
def readings (before next : Text) (sel : Selection) (moved : TextSelection) : Option Difference :=
  let removed : Int := before.length - next.length
  (atRange before next sel.start sel.stop).or <|
    if sel.isCollapsed && moved.isCollapsed && decide (0 < removed) then
      (if moved.extentOffset = sel.extent - removed then
        atRange before next (sel.extent - removed) sel.extent
      else none).or <|
        if moved.extentOffset = sel.extent then
          atRange before next sel.extent (sel.extent + removed)
        else none
    else none

/-- The difference left between a common front and a common back. -/
def scanned (before next : Text) : Difference :=
  let a := scanBefore before next 0 0
  let s := scanBehind before next a 0
  ⟨a, before.length - s, next.length - s⟩

/-- The difference before it is widened. -/
def narrow (before next : Text) (sel : Selection) (moved : TextSelection) : Difference :=
  (readings before next sel moved).getD (scanned before next)

/-- The difference over whole characters of the current text; what is unchanged at its end is
    taken in on both sides. -/
def widened (gs : Graphemes) (before : Text) (d : Difference) : Difference :=
  let stop := gs.charStop before d.stop
  ⟨gs.charStart before d.start, stop, d.nextStop + (stop - d.stop)⟩

/-- The edit that `_receive` reads. -/
def received (gs : Graphemes) (before next : Text) (sel : Selection) (moved : TextSelection) :
    Difference :=
  widened gs before (narrow before next sel moved)

/-! ## Differences -/

/-- A piece of the received text, put in the place of a range, makes the received text of the
    current one. -/
structure Difference.Exact (d : Difference) (before next : Text) : Prop where
  start_le : d.start ≤ d.stop
  stop_le : d.stop ≤ before.length
  start_le_next : d.start ≤ d.nextStop
  nextStop_le : d.nextStop ≤ next.length
  replaced : before.replaceRange d.start d.stop (next.substring d.start d.nextStop) = next

section

variable {before next : Text} {d : Difference} {a s : Nat}

/-- What two texts agree on around a difference. -/
theorem exact_of_agree (h : Agree before next a s) :
    (Difference.mk a (before.length - s) (next.length - s)).Exact before next where
  start_le := by
    have := h.fits
    dsimp only
    omega
  stop_le := Nat.sub_le _ _
  start_le_next := by
    have := h.fits'
    dsimp only
    omega
  nextStop_le := Nat.sub_le _ _
  replaced := by
    have hfits := h.fits'
    conv_rhs => rw [← h.take_append_drop]
    rw [Text.replaceRange, Text.substring, List.drop_take, Int.toNat_natCast]
    congr 3
    dsimp only
    omega

/-- What is behind a difference is as long in both texts. -/
theorem Difference.Exact.behind (h : d.Exact before next) :
    before.length - d.stop = next.length - d.nextStop := by
  obtain ⟨hstart, hstop, hnext, hnextStop, hreplaced⟩ := h
  have := congrArg List.length hreplaced
  rw [Text.length_replaceRange (by omega), Text.length_substring (by omega) (by omega)] at this
  omega

theorem Difference.Exact.agree (h : d.Exact before next) :
    Agree before next d.start (before.length - d.stop) := by
  have hbehind := h.behind
  obtain ⟨hstart, hstop, hnext, hnextStop, hreplaced⟩ := h
  rw [Text.replaceRange] at hreplaced
  have hbefore : before.take d.start <+: next :=
    ⟨next.substring d.start d.nextStop ++ before.drop d.stop,
      by rw [← List.append_assoc]; exact hreplaced⟩
  exact agree_of_affixes hstart hstop hbefore ⟨_, hreplaced⟩ (by omega)

/-- The replacement of a range is found where there is one. -/
theorem atRange_eq_some {x y : Int} : atRange before next x y = some d ↔
    0 ≤ x ∧ x ≤ y ∧ y ≤ before.length ∧ d.start = x.toNat ∧ d.stop = y.toNat ∧
      d.Exact before next := by
  unfold atRange
  split
  · next hout =>
    refine ⟨nofun, fun ⟨hx, hxy, hy, _⟩ => ?_⟩
    omega
  · next hin =>
    rw [not_or, not_or, not_lt, not_lt, not_lt] at hin
    obtain ⟨hx, hxy, hy⟩ := hin
    dsimp only
    split
    -- Where the check fails, no replacement of the range is exact.
    · next hfails =>
      refine ⟨nofun, fun ⟨_, _, _, hstart, hstop, hexact⟩ => ?_⟩
      have hagree := hexact.agree
      have hbehind := hexact.behind
      have hnext := hexact.nextStop_le
      have hle := hexact.start_le_next
      rcases hfails with hneg | hends
      · omega
      · refine absurd ?_ hends
        rw [Bool.and_eq_true, Text.startsWith, List.isPrefixOf_iff_prefix,
          List.isSuffixOf_iff_suffix]
        constructor
        · rw [Text.substring, Int.toNat_zero, List.drop_zero, List.drop_zero, Int.sub_zero,
            ← hstart, hagree.before]
          exact List.take_prefix _ _
        · have := hagree.behind
          rw [Nat.sub_sub_self hexact.stop_le, hstop] at this
          rw [this]
          exact List.drop_suffix _ _
    -- Where it holds, the texts agree outside the range, and only one replacement has its ends.
    · next hholds =>
      rw [not_or, not_not, Bool.and_eq_true, Text.startsWith, List.isPrefixOf_iff_prefix,
        List.isSuffixOf_iff_suffix] at hholds
      obtain ⟨hcount, hbefore, hbehind⟩ := hholds
      rw [Text.substring, Int.toNat_zero, List.drop_zero, List.drop_zero, Int.sub_zero] at hbefore
      have hagree := agree_of_affixes (by omega) (by omega) hbefore hbehind (by omega)
      have hexact := exact_of_agree hagree
      rw [Nat.sub_sub_self (by omega)] at hexact
      constructor
      · intro h
        cases h
        refine ⟨hx, hxy, hy, rfl, rfl, ?_⟩
        convert hexact using 2
        omega
      · rintro ⟨-, -, -, hstart, hstop, h⟩
        have hbehind := h.behind
        have hnext := h.nextStop_le
        obtain ⟨start, stop, nextStop⟩ := d
        dsimp only at hstart hstop hbehind hnext
        subst hstart hstop
        congr 2
        omega

/-! ## Readings -/

/-- The readings of the difference that the platform can have meant: the selection is replaced, or
    what is before or behind a caret is deleted and the received caret is at the deletion. -/
inductive Meant (before next : Text) (sel : Selection) (moved : TextSelection) :
    Difference → Prop
  | replaced {a b : Nat} {piece : Text} (hstart : sel.start = a) (hstop : sel.stop = b)
      (hb : b ≤ before.length) (hnext : before.replaceRange a b piece = next) :
      Meant before next sel moved ⟨a, b, a + piece.length⟩
  | deletedBefore {a c : Nat} (hsel : sel.isCollapsed = true) (hcaret : sel.extent = c)
      (hmoved : moved.isCollapsed = true) (hat : moved.extentOffset = a) (hac : a < c)
      (hc : c ≤ before.length) (hnext : before.replaceRange a c [] = next) :
      Meant before next sel moved ⟨a, c, a⟩
  | deletedBehind {c b : Nat} (hsel : sel.isCollapsed = true) (hcaret : sel.extent = c)
      (hmoved : moved.isCollapsed = true) (hat : moved.extentOffset = c) (hcb : c < b)
      (hb : b ≤ before.length) (hnext : before.replaceRange c b [] = next) :
      Meant before next sel moved ⟨c, b, c⟩

/-- What is put in the place of a range is what the received text has there. -/
theorem exact_of_replaceRange {a b : Nat} {piece : Text} (hab : a ≤ b) (hb : b ≤ before.length)
    (h : before.replaceRange a b piece = next) :
    (Difference.mk a b (a + piece.length)).Exact before next where
  start_le := hab
  stop_le := hb
  start_le_next := Nat.le_add_right _ _
  nextStop_le := by
    rw [← h, Text.length_replaceRange (hab.trans hb)]
    exact Nat.le_add_right _ _
  replaced := by
    have hpiece : next.substring a (a + piece.length : Nat) = piece := by
      rw [← h, Text.replaceRange, Text.substring, Int.toNat_natCast, List.append_assoc,
        List.drop_append_of_le_length (by rw [List.length_take]; omega),
        List.drop_eq_nil_of_le (by rw [List.length_take]; omega), List.nil_append]
      rw [show ((a + piece.length : Nat) - (a : Int)).toNat = piece.length by omega,
        List.take_left]
    dsimp only
    rw [hpiece, h]

section

variable {sel : Selection} {moved : TextSelection}

theorem Meant.exact (h : Meant before next sel moved d) : d.Exact before next := by
  cases h with
  | replaced hstart hstop hb hnext =>
    refine exact_of_replaceRange ?_ hb hnext
    have hle : sel.start ≤ sel.stop := by
      unfold Selection.start Selection.stop
      split <;> omega
    omega
  | deletedBefore hsel hcaret hmoved hat hac hc hnext =>
    exact exact_of_replaceRange hac.le hc hnext
  | deletedBehind hsel hcaret hmoved hat hcb hb hnext =>
    exact exact_of_replaceRange hcb.le hb hnext

/-- The piece that a difference puts in the place of its range. -/
theorem Difference.Exact.length_piece (h : d.Exact before next) :
    d.start + (next.substring d.start d.nextStop).length = d.nextStop := by
  have hle := h.start_le_next
  rw [Text.length_substring (by omega) (by have := h.nextStop_le; omega)]
  omega

theorem atRange_of_exact {x y : Int} (h : d.Exact before next) (hx : x = d.start)
    (hy : y = d.stop) : atRange before next x y = some d := by
  have hle := h.start_le
  have hstop := h.stop_le
  exact atRange_eq_some.2 ⟨by omega, by omega, by omega, by omega, by omega, h⟩

/-- Where the text is shorter, nothing is put in the place of a caret. -/
theorem atRange_caret {x : Int} (h : next.length < before.length) :
    atRange before next x x = none := by
  rw [Option.eq_none_iff_forall_ne_some]
  intro d hd
  obtain ⟨-, -, -, hstart, hstop, hexact⟩ := atRange_eq_some.1 hd
  have hbehind := hexact.behind
  have hle := hexact.start_le_next
  have hnext := hexact.nextStop_le
  have hbefore := hexact.stop_le
  omega

/-- A range of the length that is missing is deleted. -/
theorem exists_of_atRange_deletion {x y : Int} (h : atRange before next x y = some d)
    (hlength : y - x = before.length - next.length) :
    ∃ a b : Nat, x = a ∧ y = b ∧ b ≤ before.length ∧ before.replaceRange a b [] = next ∧
      d = ⟨a, b, a⟩ := by
  obtain ⟨hx, hxy, hy, hstart, hstop, hexact⟩ := atRange_eq_some.1 h
  have hbehind := hexact.behind
  have hle := hexact.nextStop_le
  have hempty : d.nextStop = d.start := by omega
  have hreplaced := hexact.replaced
  rw [hempty, Text.substring, Int.sub_self, Int.toNat_zero, List.take_zero] at hreplaced
  refine ⟨d.start, d.stop, by omega, by omega, hexact.stop_le, hreplaced, ?_⟩
  conv_rhs => arg 3; rw [← hempty]

theorem ends_of_isCollapsed (h : sel.isCollapsed = true) :
    sel.start = sel.extent ∧ sel.stop = sel.extent := by
  have hbase := beq_iff_eq.1 h
  rw [Selection.start, Selection.stop, if_neg (by omega), if_neg (by omega)]
  exact ⟨rfl, hbase⟩

/-- What is read at the selection is what the platform can have meant. -/
theorem readings_eq_some : readings before next sel moved = some d ↔
    Meant before next sel moved d := by
  unfold readings
  dsimp only
  constructor
  · intro h
    -- The selection replaced, text deleted in front of the caret, or text deleted behind it, in
    -- this order.
    rcases Option.or_eq_some_iff.1 h with h | ⟨-, h⟩
    · obtain ⟨hx, hxy, hy, hstart, hstop, hexact⟩ := atRange_eq_some.1 h
      have hm := @Meant.replaced before next sel moved d.start d.stop _ (by omega) (by omega)
        hexact.stop_le hexact.replaced
      rwa [hexact.length_piece] at hm
    · split at h
      · next hcond =>
        rw [Bool.and_eq_true, Bool.and_eq_true, decide_eq_true_eq] at hcond
        obtain ⟨⟨hcaret, hmoved⟩, hremoved⟩ := hcond
        rcases Option.or_eq_some_iff.1 h with h | ⟨-, h⟩
        · split at h
          · next hat =>
            obtain ⟨a, c, ha, hc, hle, hdeleted, rfl⟩ := exists_of_atRange_deletion h (by omega)
            exact Meant.deletedBefore hcaret hc hmoved (by omega) (by omega) hle hdeleted
          · cases h
        · split at h
          · next hat =>
            obtain ⟨c, b, hc, hb, hle, hdeleted, rfl⟩ := exists_of_atRange_deletion h (by omega)
            exact Meant.deletedBehind hcaret hc hmoved (by omega) (by omega) hle hdeleted
          · cases h
      · cases h
  · intro h
    have hexact := h.exact
    cases h with
    | replaced hstart hstop hb hnext =>
      rw [atRange_of_exact hexact hstart hstop]
      rfl
    | deletedBefore hcollapsed hcaret hmoved hat hac hc hnext =>
      have hbehind := hexact.behind
      have hle := hexact.nextStop_le
      dsimp only at hbehind hle
      obtain ⟨hstart, hstop⟩ := ends_of_isCollapsed hcollapsed
      rw [hstart, hstop, atRange_caret (by omega), Option.none_or,
        if_pos (by simp [hcollapsed, hmoved]; omega), if_pos (by omega),
        atRange_of_exact hexact (by dsimp only; omega) hcaret]
      rfl
    | deletedBehind hcollapsed hcaret hmoved hat hcb hb hnext =>
      have hbehind := hexact.behind
      have hle := hexact.nextStop_le
      dsimp only at hbehind hle
      obtain ⟨hstart, hstop⟩ := ends_of_isCollapsed hcollapsed
      rw [hstart, hstop, atRange_caret (by omega), Option.none_or,
        if_pos (by simp [hcollapsed, hmoved]; omega), if_neg (by omega), Option.none_or,
        if_pos (by omega), atRange_of_exact hexact hcaret (by dsimp only; omega)]

end

theorem narrow_exact (before next : Text) (sel : Selection) (moved : TextSelection) :
    (narrow before next sel moved).Exact before next := by
  unfold narrow
  cases h : readings before next sel moved with
  | some d => exact (readings_eq_some.1 h).exact
  | none => exact exact_of_agree (agree_nil before next).scanBefore.scanBehind

/-- What is unchanged beside a difference can be taken into it. -/
theorem Difference.Exact.widened (gs : Graphemes) (h : d.Exact before next) :
    (widened gs before d).Exact before next := by
  obtain ⟨-, hstart⟩ := @Graphemes.charStart_spec gs before d.start (h.start_le.trans h.stop_le)
  obtain ⟨-, hstop, hlength⟩ := @Graphemes.charStop_spec gs before d.stop h.stop_le
  have hagree := h.agree.mono hstart (Nat.sub_le_sub_left hstop before.length)
  have hbehind := h.behind
  have hnext := h.nextStop_le
  convert exact_of_agree hagree using 1
  rw [Receive.widened, Nat.sub_sub_self hlength]
  congr 1
  have := h.stop_le
  omega

end

/-- The edit read from a platform value makes the received text of the current one and is of whole
    characters, and before it is widened it is what the platform can have meant, if anything. -/
theorem received_spec (gs : Graphemes) (before next : Text) (sel : Selection)
    (moved : TextSelection) :
    (received gs before next sel moved).Exact before next ∧
      (received gs before next sel moved).start ∈ gs.boundaries before ∧
      (received gs before next sel moved).stop ∈ gs.boundaries before ∧
      ∀ d, Meant before next sel moved d → narrow before next sel moved = d := by
  have hexact := narrow_exact before next sel moved
  refine ⟨hexact.widened gs, (Graphemes.charStart_spec (hexact.start_le.trans hexact.stop_le)).1,
    (Graphemes.charStop_spec hexact.stop_le).1, fun d hd => ?_⟩
  rw [narrow, readings_eq_some.2 hd, Option.getD_some]

/-- A space typed before a space is the one before the caret. -/
theorem received_spec_space :
    narrow (.ofString "a b") (.ofString "a  b") (.collapsed 1) (.collapsed 2) = ⟨1, 1, 2⟩ := by
  have hmeant : Meant (.ofString "a b") (.ofString "a  b") (.collapsed 1) (.collapsed 2)
      ⟨1, 1, 2⟩ :=
    @Meant.replaced _ _ _ _ 1 1 (.ofString " ") rfl rfl (by decide) (by decide)
  exact (received_spec .units (.ofString "a b") (.ofString "a  b") (.collapsed 1)
    (.collapsed 2)).2.2.2 _ hmeant

end Receive

end Flark
