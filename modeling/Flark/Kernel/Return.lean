import Flark.Kernel.CodeEditing
import Flark.Kernel.Legalize
import Flark.Lib.Scan
import Flark.Lib.Squeeze

/-!
# Return's text

What Return promises of the text shown (`showsBreak` of `_commitReturn` in `kernel/editor.dart`):
that of the rows before, with a range of one of them made line breaks, white space beside line
breaks aside. The editor leaves out the rows that are as they were, from either end, and compares
the rest.

* `showsBreak`: the comparison of the rest;
* `showsBreak_iff`: it says what the comparison of the whole text would.
-/

namespace Flark

namespace Return

/-! ## The comparison -/

/-- The white space of `_breakSpace`: spaces and tabs. -/
def isBlank (u : UInt16) : Bool := u == 0x20 || u == 0x09

/-- `replaceAll(_breakSpace, '\n')`. -/
def dropBreakSpace (t : Text) : Text := Squeeze.squeeze isBlank 0x0A t

/-- `join('\n')`. -/
def joined (texts : List Text) : Text := List.intercalate [0x0A] texts

/-- The first loop of `showsBreak`: the rows before a row that show what they showed. -/
def sameBefore (texts now : List Text) (index : Nat) : Nat :=
  Scan.upTo (fun p => texts[p]? == now[p]?) (min index now.length) 0

/-- The second loop: those behind the row, back from the end; one row now is left to compare. -/
def sameBehind (texts now : List Text) (index p : Nat) : Nat :=
  Scan.upTo (fun s => texts[texts.length - 1 - s]? == now[now.length - 1 - s]?)
    (min (texts.length - index - 1) (now.length - p - 1)) 0

/-- The line breaks of a separator. -/
def breaksOf (separator : Text) : Text := List.replicate (separator.count 0x0A) 0x0A

/-- `showsBreak` of `_commitReturn`: whether the next rows show the current rows' text with a
    row's from `a` to `b` made the breaks, and with `apart` a line break after the row. -/
def showsBreak (rows : List ProjectedRow) (row : ProjectedRow) (a b : Nat) (separator : Text)
    (next : List ProjectedRow) (apart : Bool) : Bool :=
  let texts := rows.map (·.text)
  let now := next.map (·.text)
  let breaks := breaksOf separator
  let p := sameBefore texts now row.index
  let s := sameBehind texts now row.index p
  let off := (((texts.take row.index).drop p).map fun t => t.length + 1).sum
  let join (list : List Text) : Text := joined ((list.take (list.length - s)).drop p)
  let broken := (join texts).replaceRange (off + a) (off + b) breaks
  let stop := off + row.text.length + breaks.length - (b - a)
  let expected := if apart then broken.replaceRange stop stop [0x0A] else broken
  let lead : Text := if 0 < p then [0x0A] else []
  let trail : Text := if 0 < s then [0x0A] else []
  dropBreakSpace (lead ++ expected ++ trail) == dropBreakSpace (lead ++ join now ++ trail)

/-- The text of a row with its range made the breaks, and with `apart` a line break after it. -/
def brokenText (text : Text) (a b : Nat) (separator : Text) (apart : Bool) : Text :=
  text.replaceRange a b (breaksOf separator) ++ if apart then [0x0A] else []

/-- The text that Return promises of all rows. -/
def promised (rows : List ProjectedRow) (row : ProjectedRow) (a b : Nat) (separator : Text)
    (apart : Bool) : Text :=
  joined ((rows.map (·.text)).set row.index (brokenText row.text a b separator apart))

/-! ## Joined texts -/

theorem joined_around (before after : List Text) (t : Text) : joined (before ++ t :: after) =
    before.flatMap (· ++ [0x0A]) ++ t ++ after.flatMap (0x0A :: ·) := by
  induction before with
  | nil =>
    induction after generalizing t with
    | nil => simp [joined]
    | cons u after ih =>
      have ih := ih u
      rw [List.nil_append] at ih ⊢
      rw [joined, List.intercalate_cons_cons, ← joined, ih]
      simp
  | cons u before ih =>
    rw [List.cons_append, joined,
      List.intercalate_cons_of_ne_nil (List.append_ne_nil_of_right_ne_nil _ (List.cons_ne_nil _ _)),
      ← joined, ih]
    simp

theorem joined_append {l l' : List Text} (h : l ≠ []) (h' : l' ≠ []) :
    joined (l ++ l') = joined l ++ 0x0A :: joined l' := by
  obtain ⟨t, l, rfl⟩ := List.exists_cons_of_ne_nil h
  obtain ⟨t', l', rfl⟩ := List.exists_cons_of_ne_nil h'
  rw [← List.nil_append (t :: l), ← List.nil_append (t' :: l'), List.append_assoc, List.cons_append,
    joined_around, joined_around, joined_around]
  simp

theorem length_flatMap_break (texts : List Text) :
    (texts.flatMap (· ++ [0x0A])).length = (texts.map fun t => t.length + 1).sum := by
  rw [List.length_flatMap]
  simp

/-- A range of one text of those joined, replaced. -/
theorem replaceRange_joined (before after : List Text) (t piece : Text) {a b : Nat}
    (ha : a ≤ t.length) (hb : b ≤ t.length) :
    (joined (before ++ t :: after)).replaceRange ((before.map fun t => t.length + 1).sum + a)
      ((before.map fun t => t.length + 1).sum + b) piece =
    joined (before ++ t.replaceRange a b piece :: after) := by
  rw [joined_around, joined_around, ← length_flatMap_break, List.append_assoc,
    Text.replaceRange_append_right, Text.replaceRange_append_left ha hb, List.append_assoc]

/-! ## Rows left out -/

section

variable {texts now : List Text} {index p : Nat}

theorem sameBefore_le (texts now : List Text) (index : Nat) :
    sameBefore texts now index ≤ index ∧ sameBefore texts now index ≤ now.length := by
  have := Scan.upTo_le (fun p => texts[p]? == now[p]?) (min index now.length) 0
  rw [sameBefore]
  omega

theorem take_sameBefore (texts now : List Text) (index : Nat) :
    texts.take (sameBefore texts now index) = now.take (sameBefore texts now index) := by
  refine List.ext_getElem? fun i => ?_
  rw [List.getElem?_take, List.getElem?_take]
  split
  · next hi => exact beq_iff_eq.1 (Scan.holds (Nat.zero_le i) hi)
  · rfl

theorem sameBehind_le (texts now : List Text) (index p : Nat) :
    sameBehind texts now index p ≤ texts.length - index - 1 ∧
      sameBehind texts now index p ≤ now.length - p - 1 := by
  have := Scan.upTo_le (fun s => texts[texts.length - 1 - s]? == now[now.length - 1 - s]?)
    (min (texts.length - index - 1) (now.length - p - 1)) 0
  rw [sameBehind]
  omega

theorem drop_sameBehind (texts now : List Text) (index p : Nat) :
    texts.drop (texts.length - sameBehind texts now index p) =
      now.drop (now.length - sameBehind texts now index p) := by
  obtain ⟨hle, hle'⟩ := sameBehind_le texts now index p
  refine List.ext_getElem? fun i => ?_
  rw [List.getElem?_drop, List.getElem?_drop]
  by_cases hi : i < sameBehind texts now index p
  · have h := Scan.holds (Nat.zero_le (sameBehind texts now index p - 1 - i))
      (show _ < sameBehind texts now index p by omega)
    rw [show texts.length - sameBehind texts now index p + i =
        texts.length - 1 - (sameBehind texts now index p - 1 - i) by omega,
      show now.length - sameBehind texts now index p + i =
        now.length - 1 - (sameBehind texts now index p - 1 - i) by omega]
    exact beq_iff_eq.1 h
  · rw [List.getElem?_eq_none (by omega), List.getElem?_eq_none (by omega)]

end

/-! ## The whole text -/

theorem isBlank_break : isBlank 0x0A = false := by decide

/-- What joins a part to rows before it, and to rows behind it. -/
theorem joined_parts {before part behind : List Text} (hpart : part ≠ []) :
    joined (before ++ part ++ behind) =
      (if before = [] then [] else joined before ++ [0x0A]) ++ joined part ++
        if behind = [] then [] else 0x0A :: joined behind := by
  by_cases hbefore : before = [] <;> by_cases hbehind : behind = []
  · simp [hbefore, hbehind]
  · simp [hbefore, hbehind, joined_append hpart]
  · simp [hbefore, hbehind, joined_append _ hpart]
  · rw [if_neg hbefore, if_neg hbehind,
      joined_append (List.append_ne_nil_of_left_ne_nil hbefore _) hbehind,
      joined_append hbefore hpart]
    simp

/-- Parts between the same rows are compared with the breaks beside them alone. -/
theorem dropBreakSpace_parts {before part part' behind : List Text} (hpart : part ≠ [])
    (hpart' : part' ≠ []) :
    dropBreakSpace (joined (before ++ part ++ behind)) =
        dropBreakSpace (joined (before ++ part' ++ behind)) ↔
      dropBreakSpace ((if before = [] then [] else [0x0A]) ++ joined part ++
          if behind = [] then [] else [0x0A]) =
        dropBreakSpace ((if before = [] then [] else [0x0A]) ++ joined part' ++
          if behind = [] then [] else [0x0A]) := by
  have hleft := @Squeeze.squeeze_cancel_left _ _ isBlank 0x0A isBlank_break
  have hright := @Squeeze.squeeze_cancel_right _ _ isBlank 0x0A isBlank_break
  rw [joined_parts hpart, joined_parts hpart']
  simp only [dropBreakSpace]
  by_cases hbefore : before = [] <;> by_cases hbehind : behind = []
  · simp only [if_pos hbefore, if_pos hbehind]
  · simp only [if_pos hbefore, if_neg hbehind]
    exact hright _ _ _
  · simp only [if_neg hbefore, if_pos hbehind, List.append_nil, List.append_assoc,
      List.singleton_append]
    exact hleft _ _ _
  · simp only [if_neg hbefore, if_neg hbehind, List.append_assoc, List.singleton_append]
    exact (hleft _ _ _).trans (hright _ (_ :: _) (_ :: _))

theorem count_eq_of_dropBreakSpace {t t' : Text} (h : dropBreakSpace t = dropBreakSpace t') :
    t.count 0x0A = t'.count 0x0A := by
  rw [← Squeeze.count_squeeze isBlank_break t, ← Squeeze.count_squeeze isBlank_break t']
  exact congrArg (List.count 0x0A) h

theorem newline_mem_brokenText {text separator : Text} {a b : Nat} {apart : Bool}
    (h : 0x0A ∈ separator) : 0x0A ∈ brokenText text a b separator apart := by
  have hbreaks : 0x0A ∈ breaksOf separator :=
    List.mem_replicate.2 ⟨Nat.ne_of_gt (List.count_pos_iff.2 h), rfl⟩
  rw [brokenText, Text.replaceRange]
  simp [hbreaks]

/-- Every separator of Return is a line break and what goes on behind it. -/
theorem newline_mem_separator (source : Text) (start : Int) (continued : Text) :
    0x0A ∈ CodeEditing.lineBreakAt source start ++ continued := by
  refine List.mem_append_left _ ?_
  rcases CodeEditing.isLineBreak_lineBreakAt source start with h | h <;> rw [h] <;> decide

/-- A part that is left to compare holds the row whose text is broken. -/
theorem broken_part {before after : List Text} {text separator : Text} {a b off : Nat}
    (hoff : off = (before.map fun t => t.length + 1).sum) (hab : a ≤ b) (hb : b ≤ text.length)
    (apart : Bool) :
    (if apart then
      ((joined (before ++ text :: after)).replaceRange (off + a) (off + b)
        (breaksOf separator)).replaceRange
          (off + text.length + (breaksOf separator).length - (b - a))
          (off + text.length + (breaksOf separator).length - (b - a)) [0x0A]
    else (joined (before ++ text :: after)).replaceRange (off + a) (off + b)
      (breaksOf separator)) =
    joined (before ++ brokenText text a b separator apart :: after) := by
  have hlength := @Text.length_replaceRange text (breaksOf separator) a b (hab.trans hb)
  rw [hoff, replaceRange_joined _ _ _ _ (hab.trans hb) hb, brokenText]
  cases apart with
  | false => rw [if_neg Bool.false_ne_true, if_neg Bool.false_ne_true, List.append_nil]
  | true =>
    rw [if_pos rfl, if_pos rfl, show (before.map fun t => t.length + 1).sum + text.length +
        (breaksOf separator).length - (b - a) = (before.map fun t => t.length + 1).sum +
          (text.replaceRange a b (breaksOf separator)).length by omega,
      replaceRange_joined _ _ _ _ le_rfl le_rfl]
    congr 2
    rw [Text.replaceRange, List.take_length, List.drop_length, List.append_nil]

theorem take_part_drop {l : List Text} {p n : Nat} (h : p ≤ n) :
    l.take p ++ (l.take n).drop p ++ l.drop n = l := by
  rw [← Nat.min_eq_left h, ← List.take_take, Nat.min_eq_left h, List.take_append_drop,
    List.take_append_drop]

/-- The part that is left to compare, around the text in it that is replaced. -/
theorem part_around {texts : List Text} {text : Text} {index p n : Nat}
    (htext : texts[index]? = some text) (hp : p ≤ index) (hn : index < n) :
    (texts.take n).drop p =
        (texts.take index).drop p ++ text :: (texts.take n).drop (index + 1) ∧
      ∀ t, texts.set index t = texts.take p ++
        ((texts.take index).drop p ++ t :: (texts.take n).drop (index + 1)) ++ texts.drop n := by
  obtain ⟨hindex, htext⟩ := List.getElem?_eq_some_iff.1 htext
  have hat : index < (texts.take n).length := by
    rw [List.length_take]
    omega
  have htake : texts.take n = texts.take index ++ text :: (texts.take n).drop (index + 1) := by
    conv_lhs => rw [← List.take_append_drop index (texts.take n), List.drop_eq_getElem_cons hat]
    rw [List.take_take, Nat.min_eq_left hn.le, List.getElem_take, htext]
  have hpart : (texts.take n).drop p =
      (texts.take index).drop p ++ text :: (texts.take n).drop (index + 1) := by
    conv_lhs => rw [htake]
    refine List.drop_append_of_le_length ?_
    rw [List.length_take]
    omega
  refine ⟨hpart, fun t => ?_⟩
  have hbehind : (texts.take n).drop (index + 1) ++ texts.drop n = texts.drop (index + 1) := by
    have h := @take_part_drop texts (index + 1) n hn
    conv_rhs => rw [← h, List.append_assoc]
    refine (List.drop_left' ?_).symm
    rw [List.length_take]
    omega
  have hbefore : texts.take p ++ (texts.take index).drop p = texts.take index := by
    rw [← Nat.min_eq_left hp, ← List.take_take, Nat.min_eq_left hp, List.take_append_drop]
  rw [List.set_eq_take_append_cons_drop, if_pos hindex, ← hbehind]
  conv_lhs => rw [← hbefore]
  simp only [List.append_assoc, List.cons_append]

/-- Rows are left out before the part, or behind it, exactly where a break stands. -/
theorem lead_eq {texts : List Text} {p : Nat} (h : p ≤ texts.length) :
    (if 0 < p then [0x0A] else []) = if texts.take p = [] then [] else ([0x0A] : Text) := by
  have hlength := List.length_take_of_le h
  by_cases hp : p = 0
  · rw [hp, if_neg (lt_irrefl 0), if_pos List.take_zero]
  · rw [if_pos (Nat.pos_of_ne_zero hp), if_neg fun hnil => hp ?_]
    rw [← hlength, hnil, List.length_nil]

theorem trail_eq {texts : List Text} {s : Nat} (h : s ≤ texts.length) :
    (if 0 < s then [0x0A] else []) =
      if texts.drop (texts.length - s) = [] then [] else ([0x0A] : Text) := by
  have hlength : (texts.drop (texts.length - s)).length = s := by
    rw [List.length_drop, Nat.sub_sub_self h]
  by_cases hs : s = 0
  · rw [hs, if_neg (lt_irrefl 0), Nat.sub_zero, if_pos List.drop_length]
  · rw [if_pos (Nat.pos_of_ne_zero hs), if_neg fun hnil => hs ?_]
    rw [← hlength, hnil, List.length_nil]

/-- What Return's check by parts says, the check of the whole text does: the rows left out are the
    same, and meet the rest at a line break. -/
theorem showsBreak_iff {p next : Projection} {row : ProjectedRow} {a b : Nat} {separator : Text}
    (hrow : p.rows[row.index]? = some row) (hab : a ≤ b) (hb : b ≤ row.text.length)
    (hseparator : 0x0A ∈ separator) (apart : Bool) :
    showsBreak p.rows row a b separator next.rows apart = true ↔
      dropBreakSpace (promised p.rows row a b separator apart) =
        dropBreakSpace (joined (next.rows.map (·.text))) := by
  have htext : (p.rows.map (·.text))[row.index]? = some row.text := by
    rw [List.getElem?_map, hrow]
    rfl
  rw [showsBreak, promised, beq_iff_eq]
  generalize p.rows.map (·.text) = texts at htext
  generalize next.rows.map (·.text) = now
  generalize row.index = index at htext
  generalize row.text = text at htext hb
  dsimp only
  -- What is left out are the rows that are the same on both sides, before the row and behind it.
  obtain ⟨hp, hp'⟩ := sameBefore_le texts now index
  have hbefore := take_sameBefore texts now index
  generalize sameBefore texts now index = p at hp hp' hbefore
  obtain ⟨hs, hs'⟩ := sameBehind_le texts now index p
  have hbehind := drop_sameBehind texts now index p
  generalize sameBehind texts now index p = s at hs hs' hbehind
  have hindex := (List.getElem?_eq_some_iff.1 htext).1
  obtain ⟨hpart, hset⟩ := part_around htext hp (show index < texts.length - s by omega)
  rw [hpart, broken_part rfl hab hb, hset]
  rw [lead_eq (hp.trans hindex.le), trail_eq (show s ≤ texts.length by omega)]
  have hmem : 0x0A ∈ joined ((texts.take index).drop p ++ brokenText text a b separator apart ::
      (texts.take (texts.length - s)).drop (index + 1)) := by
    rw [joined_around]
    simp only [List.mem_append, newline_mem_brokenText hseparator, or_true, true_or]
  have hne : (texts.take index).drop p ++ brokenText text a b separator apart ::
      (texts.take (texts.length - s)).drop (index + 1) ≠ [] :=
    List.append_ne_nil_of_right_ne_nil _ (List.cons_ne_nil _ _)
  generalize (texts.take index).drop p ++ brokenText text a b separator apart ::
    (texts.take (texts.length - s)).drop (index + 1) = part at hmem hne
  by_cases hnow : now.length = p
  · -- All next rows are left out: they have too few line breaks to show the one promised.
    obtain rfl : s = 0 := by omega
    have hall : texts.take p = now := hbefore.trans (List.take_of_length_le hnow.le)
    rw [Nat.sub_zero, Nat.sub_zero, List.drop_length, @List.take_length _ now,
      List.drop_eq_nil_of_le hnow.le, List.append_nil, if_pos rfl, hall]
    by_cases hnil : now = []
    · rw [hnil, if_pos rfl]
      simp only [List.nil_append, List.append_nil]
    · have hpos := List.count_pos_iff.2 hmem
      rw [if_neg hnil, joined_append hnil hne]
      refine iff_of_false (fun h => ?_) fun h => ?_
      · have hcount := count_eq_of_dropBreakSpace h
        simp only [List.count_append, joined, List.intercalate_nil,
          List.append_nil] at hcount hpos
        omega
      · have hcount := count_eq_of_dropBreakSpace h
        rw [List.count_append, List.count_cons_self] at hcount
        omega
  -- Some next row is left: the rows left out on either side meet the rest at a line break.
  · have hne' : (now.take (now.length - s)).drop p ≠ [] := fun hnil => by
      have := congrArg List.length hnil
      rw [List.length_drop, List.length_take, List.length_nil] at this
      omega
    have hnow := @take_part_drop now p (now.length - s) (by omega)
    rw [← hbefore, ← hbehind] at hnow
    refine (dropBreakSpace_parts hne hne').symm.trans ?_
    rw [hnow]

/-- A document of two letters after the blank line, and the rows it has with a break between
    them. -/
def brokenLetters : Projection :=
  let rows := Document.letters.projection.rows
  { Document.letters.projection with
    rows := (rows ++ rows.drop 2).mapIdx fun i row =>
      { row with text := (["a", "", "b", "c"].map Text.ofString).getD i [] } }

theorem showsBreak_iff_letters :
    showsBreak Document.letters.projection.rows (Document.letters.projection.rows.getD 2 default)
      1 1 (CodeEditing.lineBreakAt Document.letters.source 4 ++ []) brokenLetters.rows
      false = true :=
  (showsBreak_iff (by decide) le_rfl (by decide) (newline_mem_separator _ _ _)
    false).2 (by decide)

end Return

end Flark
