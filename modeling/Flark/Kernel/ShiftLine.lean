import Flark.Kernel.CodeEditing
import Flark.Kernel.Document
import Flark.Lib.Scan

/-!
# Shifting a line

Indent and Outdent move the lines of a list item at the item's column (`_shiftLine` of
`kernel/editor.dart`): of a line, the white space around the column is respelled as spaces, more
or fewer of them. A tab can straddle the column, so the edit starts where the white space does.

* `shiftIn`: the edit of a line, over the places that the projection gives for it;
* `Around`: the white space around a visual column;
* `shiftIn_of_around`, `Around.respell`: what a shift writes, and the white space that it leaves;
* `Projection.shiftLine_spec`: a shift is undone by the opposite one.
-/

namespace Flark

open CodeEditing

/-! ## The edit -/

/-- The first loop of `_shiftLine`: on over a line of which `n` units are left, until `column`
    visual columns are behind it. Gives the place and its column. -/
def toColumn (source : Text) (column : Nat) : (n at_ col : Nat) → Nat × Nat
  | 0, at_, col => (at_, col)
  | n + 1, at_, col =>
    if col < column then toColumn source column n (at_ + 1) (columns [source.codeUnitAt at_] col)
    else (at_, col)

/-- The loop of `_shiftLine` back over white space. -/
def backOverSpace (source : Text) (start : Nat) : (a : Nat) → Nat
  | 0 => 0
  | a + 1 => if start < a + 1 ∧ isSpace source a then backOverSpace source start a else a + 1

/-- `_shiftLine`, of a line that goes from `start` to `stop` and the first row of which has its
    content at `content`. -/
def shiftIn (source : Text) (start : Nat) (stop content : Int) (column : Nat) (delta : Int) :
    Option (Nat × Nat × Text) :=
  let (at_, col) := toColumn source column (stop - start).toNat start 0
  let a := backOverSpace source start at_
  let b := Scan.upTo (fun i => isSpace source i) (content - at_).toNat at_
  -- The line is shorter than that column, has no more than white space, or its content is in front
  -- of it.
  if col < column ∨ (b : Int) = stop ∨ content < at_ then none
  else
    -- The white space around the column is written anew, in spaces.
    let left := columns (source.substring start a) 0
    let width : Int := columns (source.substring a b) left - left
    let shifted := width +
      if 0 < delta then delta else -max 0 (min ((column : Int) - left) (-delta))
    if shifted = width then none else some (a, b, List.replicate shifted.toNat 0x20)

namespace Projection

variable (p : Projection)

/-- `lineContentEnd`. -/
def lineContentEnd (line : Nat) : Int :=
  if p.model.lineCount ≤ line then -1 else p.model.lineEndOf p.source line

/-- Where the content of the first row of a line starts: white space from there on is its own. -/
def lineContent (line : Nat) : Int :=
  match p.lineSpans line with
  | [] => p.lineContentEnd line
  | span :: _ => span.1

/-- `_shiftLine`: the edit that moves what a line holds after a visual column by `delta`. -/
def shiftLine (line column : Nat) (delta : Int) : Option (Nat × Nat × Text) :=
  shiftIn p.source (lineStartPastMark p.source p.model line).toNat (p.lineContentEnd line)
    (p.lineContent line) column delta

end Projection

/-! ## Visual columns -/

section

variable {source : Text} {column n i j k c : Nat}

theorem columns_append (s t : Text) (c : Nat) : columns (s ++ t) c = columns t (columns s c) :=
  List.foldl_append

/-- Every unit shows a column at least. -/
theorem add_length_le_columns (t : Text) (c : Nat) : c + t.length ≤ columns t c := by
  induction t generalizing c with
  | nil => exact le_rfl
  | cons u rest ih =>
    have hstep : c + 1 ≤ columns [u] c := by
      simp only [columns, List.foldl_cons, List.foldl_nil]
      split <;> omega
    rw [← List.singleton_append, columns_append, List.length_append, List.length_singleton]
    have := ih (columns [u] c)
    omega

theorem columns_spaces (n c : Nat) : columns (List.replicate n 0x20) c = c + n := by
  induction n generalizing c with
  | zero => rfl
  | succ n ih =>
    rw [List.replicate_succ, ← List.singleton_append, columns_append, ih]
    exact Nat.succ_add_eq_add_succ c n

theorem columns_split (hij : i ≤ j) (hjk : j ≤ k) : columns (source.substring i k) c =
    columns (source.substring j k) (columns (source.substring i j) c) := by
  rw [Text.substring_split hij hjk, columns_append]

/-- The columns of a stretch, its first unit on its own. -/
theorem columns_first (hij : i < j) (hj : j ≤ source.length) :
    columns (source.substring i j) c =
      columns (source.substring (i + 1 : Nat) j) (columns [source.codeUnitAt i] c) := by
  have hunit : source.substring i (i + 1 : Nat) = [source.codeUnitAt i] := by
    rw [Text.codeUnitAt, Int.toNat_natCast, List.getD_eq_getElem _ _ (by omega)]
    exact Text.substring_one (List.getElem?_eq_getElem (by omega))
  rw [columns_split (Nat.le_succ i) hij, hunit]

theorem columns_self : columns (source.substring i i) c = c := by
  rw [Text.substring, Int.sub_self, Int.toNat_zero, List.take_zero]
  rfl

/-- The visual column of a place on the line that starts at `start`. -/
def columnOf (source : Text) (start i : Nat) : Nat := columns (source.substring start i) 0

theorem columnOf_split {start : Nat} (hi : start ≤ i) (hij : i ≤ j) :
    columnOf source start j = columns (source.substring i j) (columnOf source start i) :=
  columns_split hi hij

/-- Places further on have columns further on. -/
theorem columnOf_add_le {start : Nat} (hi : start ≤ i) (hij : i ≤ j) (hj : j ≤ source.length) :
    columnOf source start i + (j - i) ≤ columnOf source start j := by
  have := add_length_le_columns (source.substring i j) (columnOf source start i)
  rw [Text.length_substring (by omega) (by omega)] at this
  rw [columnOf_split hi hij]
  omega

/-- Where the first loop comes to. -/
theorem toColumn_spec {col : Nat} (hn : i + n ≤ source.length)
    (h : toColumn source column n i c = (k, col)) :
    i ≤ k ∧ k ≤ i + n ∧ col = columns (source.substring i k) c ∧ (k < i + n → column ≤ col) ∧
      ∀ j, i ≤ j → j < k → columns (source.substring i j) c < column := by
  induction n generalizing i c with
  | zero =>
    obtain ⟨rfl, rfl⟩ := Prod.mk.inj h
    exact ⟨le_rfl, le_rfl, columns_self.symm, fun hlt => absurd hlt (lt_irrefl _),
      fun j hj hj' => absurd hj' (not_lt.2 hj)⟩
  | succ n ih =>
    rw [toColumn] at h
    split at h
    · next hlt =>
      obtain ⟨hi, hk, hcol, hreached, hbefore⟩ := ih (by omega) h
      refine ⟨by omega, by omega, ?_, fun hk' => hreached (by omega), fun j hj hj' => ?_⟩
      · rw [hcol, columns_first hi (by omega)]
      · rcases hj.eq_or_lt with rfl | hij
        · rwa [columns_self]
        · rw [columns_first hij (by omega)]
          exact hbefore j hij hj'
    · next hge =>
      obtain ⟨rfl, rfl⟩ := Prod.mk.inj h
      exact ⟨le_rfl, Nat.le_add_right _ _, columns_self.symm, fun _ => not_lt.1 hge,
        fun j hj hj' => absurd hj' (not_lt.2 hj)⟩

end

/-! ## White space -/

section

variable {source : Text} {start i a : Nat}

theorem backOverSpace_spec (hi : start ≤ i) :
    start ≤ backOverSpace source start i ∧ backOverSpace source start i ≤ i ∧
      (∀ j : Nat, backOverSpace source start i ≤ j → j < i → isSpace source j = true) ∧
      (start < backOverSpace source start i →
        isSpace source (backOverSpace source start i - 1 : Nat) = false) := by
  induction i with
  | zero => exact ⟨hi, le_rfl, fun j _ hj => absurd hj (Nat.not_lt_zero j),
      fun h => absurd h (Nat.not_lt_zero start)⟩
  | succ i ih =>
    rw [backOverSpace]
    split
    · next hspace =>
      obtain ⟨hstart, hle, hall, hbefore⟩ := ih (by omega)
      refine ⟨hstart, by omega, fun j hj hj' => ?_, hbefore⟩
      rcases (Nat.lt_succ_iff.1 hj').eq_or_lt with rfl | hlt
      · exact hspace.2
      · exact hall j hj hlt
    · next hnot =>
      refine ⟨hi, le_rfl, fun j hj hj' => absurd hj' (not_lt.2 hj), fun hlt => ?_⟩
      exact Bool.eq_false_of_not_eq_true fun h => hnot ⟨hlt, h⟩

/-- Where the loop back stops, by the units it goes over. -/
theorem backOverSpace_eq (ha : start ≤ a) (hai : a ≤ i)
    (hspace : ∀ j : Nat, a ≤ j → j < i → isSpace source j = true)
    (hbefore : start < a → isSpace source (a - 1 : Nat) = false) :
    backOverSpace source start i = a := by
  obtain ⟨hstart, hle, hall, hstop⟩ := @backOverSpace_spec source start _ (ha.trans hai)
  rcases lt_trichotomy (backOverSpace source start i) a with hlt | heq | hgt
  · have := hall (a - 1) (by omega) (by omega)
    rw [hbefore (by omega)] at this
    cases this
  · exact heq
  · have := hspace (backOverSpace source start i - 1) (by omega) (by omega)
    rw [hstop (by omega)] at this
    cases this

end

/-! ## The white space around a column -/

/-- The white space of a line, from `a` to `b`, around a visual column that the line reaches. -/
structure Around (source : Text) (start : Nat) (stop content : Int) (column a b : Nat) : Prop where
  start_le : start ≤ a
  within : (b : Int) ≤ content
  space : ∀ i : Nat, a ≤ i → i < b → isSpace source i = true
  before : start < a → isSpace source (a - 1 : Nat) = false
  behind : (b : Int) < content → isSpace source b = false
  left : columnOf source start a ≤ column
  reach : ∃ k, a ≤ k ∧ k ≤ b ∧ (k : Int) ≤ stop ∧ column ≤ columnOf source start k

section

variable {source : Text} {start column a b d : Nat} {stop content : Int}

theorem Around.le (h : Around source start stop content column a b) : a ≤ b := by
  obtain ⟨k, hak, hkb, -⟩ := h.reach
  exact hak.trans hkb

/-- White space ends within the text. -/
theorem Around.le_length (h : Around source start stop content column a b)
    (hstop : stop ≤ source.length) : b ≤ source.length := by
  obtain ⟨k, hak, hkb, hk, -⟩ := h.reach
  by_contra hlt
  have := h.space (b - 1) (by omega) (by omega)
  rw [isSpace, Text.codeUnitAt, Int.toNat_natCast, List.getD_eq_default _ _ (by omega)] at this
  exact absurd this (by decide)

/-- The edit of a line by the white space around the column. -/
theorem shiftIn_of_around (hstart : (start : Int) ≤ stop) (hstop : stop ≤ source.length)
    (h : Around source start stop content column a b) (hb : (b : Int) ≠ stop) (delta : Int) :
    shiftIn source start stop content column delta =
      let width : Int := columnOf source start b - columnOf source start a
      let shifted := width +
        if 0 < delta then delta
        else -max 0 (min ((column : Int) - columnOf source start a) (-delta))
      if shifted = width then none else some (a, b, List.replicate shifted.toNat 0x20) := by
  obtain ⟨k₀, hak₀, hk₀b, hk₀, hreach⟩ := h.reach
  have hlength := h.le_length hstop
  rw [shiftIn]
  rcases hcol : toColumn source column (stop - start).toNat start 0 with ⟨k, col⟩
  obtain ⟨hstartk, hkn, hcolk, hreached, hbefore⟩ := toColumn_spec (by omega) hcol
  -- The loop stops on the white space: not before it, where the column is not reached yet.
  have hka : a ≤ k := by
    by_contra hlt
    have hat : column ≤ columnOf source start k := (hreached (by omega)).trans_eq hcolk
    have := @columnOf_add_le source k a start hstartk (show k ≤ a by omega) (by omega)
    have := h.left
    omega
  have hkk₀ : k ≤ k₀ := by
    by_contra hlt
    exact absurd (hbefore k₀ (h.start_le.trans hak₀) (by omega)) (not_lt.2 hreach)
  have hcolumn : column ≤ col := by
    by_cases hlt : k < start + (stop - start).toNat
    · exact hreached hlt
    · obtain rfl : k = k₀ := by omega
      rwa [hcolk]
  have hback : backOverSpace source start k = a :=
    backOverSpace_eq h.start_le hka (fun j hj hj' => h.space j hj (by omega)) h.before
  have hforward : Scan.upTo (fun i => isSpace source i) (content - k).toNat k = b := by
    have := h.within
    exact Scan.upTo_eq (by omega) (by omega) (fun j hj hj' => h.space j (by omega) hj')
      fun hlt => h.behind (by omega)
  simp only [hback, hforward]
  rw [if_neg (by have := h.within; omega)]
  have hsplit : columns (source.substring a b) (columns (source.substring start a) 0) =
      columnOf source start b := (columnOf_split h.start_le h.le).symm
  rw [hsplit]
  rfl

/-- An edit is one of the white space around the column. -/
theorem around_of_shiftIn (hstart : (start : Int) ≤ stop) (hstop : stop ≤ source.length)
    {delta : Int} {text : Text}
    (h : shiftIn source start stop content column delta = some (a, b, text)) :
    Around source start stop content column a b ∧ (b : Int) ≠ stop := by
  rw [shiftIn] at h
  rcases hcol : toColumn source column (stop - start).toNat start 0 with ⟨k, col⟩
  obtain ⟨hstartk, hkn, hcolk, -, hbefore⟩ := toColumn_spec (by omega) hcol
  rw [hcol] at h
  obtain ⟨hcond, hedit⟩ := Option.ite_none_left_eq_some.1 h
  obtain ⟨-, hedit⟩ := Option.ite_none_left_eq_some.1 hedit
  obtain ⟨ha, hedit⟩ := Prod.mk.inj (Option.some.inj hedit)
  obtain ⟨hb, -⟩ := Prod.mk.inj hedit
  subst ha hb
  obtain ⟨hsa, hak, hspace, hnot⟩ := @backOverSpace_spec source start _ hstartk
  have hle := Scan.le_upTo (fun i => isSpace source i) (content - k).toNat k
  have hup := Scan.upTo_le (fun i => isSpace source i) (content - k).toNat k
  -- The white space reaches from what `backOverSpace` finds to the content, or to the column past
  -- it.
  refine ⟨⟨hsa, by omega, fun i hi hi' => ?_, hnot, fun hlt => ?_, ?_, k, hak, hle, by omega, ?_⟩,
    by omega⟩
  · rcases lt_or_ge i k with hik | hki
    · exact hspace i hi hik
    · exact Scan.holds (p := fun i : Nat => isSpace source i) hki hi'
  · exact Scan.fails (p := fun i : Nat => isSpace source i) (by omega)
  · rcases hak.eq_or_lt with heq | hlt
    · -- What is before the column is no white space, so no tab: it reaches the column exactly.
      rw [heq] at hnot ⊢
      rcases hstartk.eq_or_lt with rfl | hlt
      · rw [columnOf, columns_self]
        exact Nat.zero_le _
      · have hprev := hbefore (k - 1) (by omega) (by omega)
        have hunit := hnot hlt
        rw [columnOf, columns_split (j := k - 1) (by omega) (by omega),
          columns_first (by omega) (by omega), Nat.sub_add_cancel (by omega), columns_self]
        have htab : source.codeUnitAt (k - 1 : Nat) ≠ 0x09 := by
          intro htab
          rw [isSpace, htab] at hunit
          exact absurd hunit (by decide)
        simp only [columns, List.foldl_cons, List.foldl_nil, if_neg htab]
        exact hprev
    · exact (hbefore _ hsa hlt).le
  · rw [columnOf, ← hcolk]
    omega

/-! ## The line with its white space respelled -/

/-- What is before the white space keeps its columns. -/
theorem columnOf_replaceRange (piece : Text) (ha : a ≤ source.length) :
    columnOf (source.replaceRange a b piece) start a = columnOf source start a := by
  have htake : ((a : Nat) : Int) ≤ (source.take a).length := by
    rw [List.length_take]
    omega
  conv_rhs => rw [← List.take_append_drop a source]
  rw [columnOf, columnOf, Text.replaceRange, List.append_assoc,
    Text.substring_append (Int.natCast_nonneg _) htake,
    Text.substring_append (Int.natCast_nonneg _) htake]

/-- The spaces put there count one by one. -/
theorem columnOf_spaces {n k : Nat} (hsa : start ≤ a) (ha : a ≤ source.length) (hk : k ≤ n) :
    columnOf (source.replaceRange a b (List.replicate n 0x20)) start (a + k : Nat) =
      columnOf source start a + k := by
  have hspaces : (source.replaceRange a b (List.replicate n 0x20)).substring a (a + k : Nat) =
      List.replicate k 0x20 := by
    rw [Text.substring, Text.replaceRange, Int.toNat_natCast, List.append_assoc,
      List.drop_left' (by rw [List.length_take]; omega),
      List.take_append_of_le_length (by rw [List.length_replicate]; omega), List.take_replicate]
    congr 1
    omega
  rw [columnOf_split hsa (Nat.le_add_right a k), columnOf_replaceRange _ ha, hspaces,
    columns_spaces]

/-- Respelled as spaces, `d` columns more of them, white space is around the column that is `d`
    columns further on. -/
theorem Around.respell (hstop : stop ≤ source.length)
    (h : Around source start stop content column a b) {width : Nat}
    (hwidth : columnOf source start b = columnOf source start a + width) (d : Nat) :
    Around (source.replaceRange a b (List.replicate (width + d) 0x20)) start
      (stop + ((a + (width + d) : Nat) - b)) (content + ((a + (width + d) : Nat) - b)) (column + d)
      a (a + (width + d)) := by
  have hb := h.le_length hstop
  have ha := h.le.trans hb
  have hwithin := h.within
  have hleft := h.left
  obtain ⟨k, hak, hkb, hk, hreach⟩ := h.reach
  have hka := columnOf_add_le (h.start_le.trans hak) hkb hb
  refine ⟨h.start_le, by omega, fun i hi hi' => ?_, fun hlt => ?_, fun hlt => ?_, ?_, ?_⟩
  · obtain ⟨j, rfl⟩ := Nat.exists_eq_add_of_le hi
    have hj : j < width + d := by omega
    rw [isSpace, Text.codeUnitAt_replaceRange_inserted (by rwa [List.length_replicate]) ha,
      Text.codeUnitAt, Int.toNat_natCast, List.getD_replicate _ hj]
    decide
  · rw [isSpace, Text.codeUnitAt_replaceRange_before (by omega) ha]
    exact h.before hlt
  · have hunit := @Text.codeUnitAt_replaceRange_behind source (List.replicate (width + d) 0x20)
      a b b le_rfl ha
    rw [List.length_replicate, Nat.sub_self, Nat.add_zero] at hunit
    rw [isSpace, hunit]
    exact h.behind (by omega)
  · rw [columnOf_replaceRange _ ha]
    omega
  · refine ⟨a + (column + d - columnOf source start a), by omega, by omega, by omega, ?_⟩
    rw [columnOf_spaces h.start_le ha (by omega)]
    omega

end

/-! ## The line of a projection -/

section

variable {p : Projection} {line : Nat}

/-- A line that starts with a unit of its content ends behind it. -/
theorem lt_trim {src : Text} {lo k : Nat} (hk : 0 < k)
    (hlo : ¬(src.codeUnitAt lo = 0x0A ∨ src.codeUnitAt lo = 0x0D)) :
    (lo : Int) < RenderModel.lineEndOf.trim src lo k := by
  induction k with
  | zero => exact absurd hk (lt_irrefl 0)
  | succ k ih =>
    rw [RenderModel.lineEndOf.trim]
    split
    · next hends =>
      refine ih (Nat.pos_of_ne_zero fun h => hlo ?_)
      rwa [h, Nat.add_zero] at hends
    · omega

/-- A line starts, past the mark, before its content ends. -/
theorem Projection.lineStart_le (hm : p.model.HasLineTable p.source)
    (hline : line < p.model.lineCount) :
    0 ≤ lineStartPastMark p.source p.model line ∧
      lineStartPastMark p.source p.model line ≤ p.lineContentEnd line ∧
      p.lineContentEnd line ≤ p.source.length := by
  have hstart := hm.starts line hline
  have hle := hm.lineBound_le_lineEndOf hline
  have hlength := lineBound_le_length p.source (line + 1)
  have hend := hm.lineEndOf_le_lineBound hline
  rw [Projection.lineContentEnd, if_neg (not_le.2 hline)]
  simp only [lineStartPastMark, hstart]
  split
  · next hmark =>
    obtain ⟨hzero, hne, hunit⟩ := hmark
    have hzero : lineBound p.source line = 0 := Nat.cast_eq_zero.1 hzero
    -- The mark is a unit of the line, and no line ending.
    have hnext : 0 < lineBound p.source (line + 1) := by
      by_cases hlast : line + 1 < lineTotal p.source
      · have := lineBound_lt (show line < line + 1 by omega) hlast
        omega
      · rw [lineBound_of_le (not_lt.1 hlast)]
        exact List.length_pos_iff.2 hne
    have hlt := @lt_trim p.source 0 _ hnext (by rw [Nat.cast_zero, hunit]; decide)
    have heq := hm.lineEndOf_eq hline
    rw [hzero, Nat.sub_zero] at heq
    rw [heq] at hend ⊢
    omega
  · omega

/-- What a shift by more columns does, and what undoes it. The white space around the column is
    written as spaces, `d` more of them than it showed columns, so that what follows is `d` columns
    further on; what is before it stays. On the line that results, whose text a projection has in
    the same place, the shift back by `d` writes the white space as the spaces it showed. -/
theorem Projection.shiftLine_spec (hm : p.model.HasLineTable p.source)
    (hline : line < p.model.lineCount) {column d : Nat} (hd : 0 < d) {a b : Nat} {text : Text}
    (h : p.shiftLine line column d = some (a, b, text)) :
    let start := (lineStartPastMark p.source p.model line).toNat
    let result := p.source.replaceRange a b text
    ∃ width : Nat,
      Around p.source start (p.lineContentEnd line) (p.lineContent line) column a b ∧
      columnOf p.source start b = columnOf p.source start a + width ∧
      text = List.replicate (width + d) 0x20 ∧
      result.take a = p.source.take a ∧
      result.drop (a + text.length) = p.source.drop b ∧
      columnOf result start (a + text.length) = columnOf p.source start b + d ∧
      result.replaceRange a (a + text.length) (List.replicate width 0x20) =
        p.source.replaceRange a b (List.replicate width 0x20) ∧
      ∀ p' : Projection, p'.source = result →
        lineStartPastMark p'.source p'.model line = lineStartPastMark p.source p.model line →
        p'.lineContentEnd line = p.lineContentEnd line + ((a + text.length : Nat) - b) →
        p'.lineContent line = p.lineContent line + ((a + text.length : Nat) - b) →
        p'.shiftLine line (column + d) (-d) =
          some (a, a + text.length, List.replicate width 0x20) := by
  obtain ⟨hzero, hstart, hstop⟩ := p.lineStart_le hm hline
  intro start result
  have hstart' : (start : Int) ≤ p.lineContentEnd line := by omega
  rw [Projection.shiftLine] at h
  obtain ⟨haround, hne⟩ := around_of_shiftIn hstart' hstop h
  have hb := haround.le_length hstop
  have ha := haround.le.trans hb
  have hleft := haround.left
  have hgrows := columnOf_add_le haround.start_le haround.le hb
  -- The white space shows `width` columns, and is written as that many spaces and `d` more.
  obtain ⟨width, hwidth⟩ := Nat.exists_eq_add_of_le (Nat.le_of_add_right_le hgrows)
  have htext : text = List.replicate (width + d) 0x20 := by
    rw [shiftIn_of_around hstart' hstop haround hne, if_pos (show (0 : Int) < d by omega)] at h
    obtain ⟨-, hedit⟩ := Option.ite_none_left_eq_some.1 h
    obtain ⟨-, hedit⟩ := Prod.mk.inj (Option.some.inj hedit)
    rw [← (Prod.mk.inj hedit).2]
    congr 1
    omega
  have hlength : text.length = width + d := by rw [htext, List.length_replicate]
  have hresult : result = p.source.replaceRange a b (List.replicate (width + d) 0x20) :=
    congrArg (p.source.replaceRange a b) htext
  have htake : result.take a = p.source.take a := by
    rw [hresult, Text.replaceRange, List.append_assoc,
      List.take_left' (by rw [List.length_take, Nat.min_eq_left ha])]
  have hdrop : result.drop (a + text.length) = p.source.drop b := by
    refine List.drop_left' ?_
    rw [List.length_append, List.length_take, Nat.min_eq_left ha]
  have hcolumn : columnOf result start (a + text.length) = columnOf p.source start b + d := by
    rw [hresult, hlength, columnOf_spaces haround.start_le ha le_rfl]
    omega
  refine ⟨width, haround, hwidth, htext, htake, hdrop, hcolumn, ?_, ?_⟩
  · rw [Text.replaceRange, htake, hdrop, Text.replaceRange]
  -- The shift back finds the same white space, as spaces now, `d` columns further on.
  · intro p' hsource hstarts hends hcontent
    have hresulting := haround.respell hstop hwidth d
    rw [← hresult, ← hlength, ← hends, ← hcontent] at hresulting
    have hstart' : (start : Int) ≤ p'.lineContentEnd line := by omega
    have hstop' : p'.lineContentEnd line ≤ result.length := by
      rw [hends, Text.length_replaceRange ha]
      omega
    rw [Projection.shiftLine, hstarts, hsource,
      shiftIn_of_around hstart' hstop' hresulting (by omega), hcolumn, hwidth,
      hresult, columnOf_replaceRange _ ha, if_neg (show ¬(0 : Int) < -d by omega),
      if_neg (by omega)]
    rw [Option.some_inj, Prod.mk.injEq, Prod.mk.injEq]
    refine ⟨rfl, rfl, congrArg (List.replicate · _) ?_⟩
    omega

/-- A model of a list item of two lines, a letter on each, the second one at `b`. -/
def twoLineItem (b : UInt32) : RenderModel where
  bytes := []
  words :=
    [0x354B4C46, 5, b + 1, b + 1, 2, 4, 2, 3, 0, 0, 3, 0] ++ [0, 4] ++
    [0, 0xFFFFFFFF, 0, b + 1, 0, 2, 0, 0, 0, 0xFFFFFFFF] ++
    [0x106, 0, 0, b + 1, 0, 2, 0, 0, 0, 0xFFFFFFFF] ++ [7, 1, 0, b + 1, 0, 2, 0, 0, 4, 0] ++
    [1, 2, 2, b + 1, 0, 2, 0, 0, 0, 0xFFFFFFFF] ++
    [2, 3, 0, 0] ++ [b, b + 1, 4, 1] ++ [2, 3, 0, 1] ++ [3, b, 0, 12] ++ [b, b + 1, 0, 1] ++
    [2, 0, 0]

/-- The tab of a second line becomes six spaces, and then the four that it showed. -/
theorem Projection.shiftLine_spec_tabbed :
    (Projection.of .units (twoLineItem 10) (Text.ofString "-\ta\n      b") {} none).shiftLine
      1 2 (-2) = some (4, 10, List.replicate 4 0x20) := by
  obtain ⟨width, -, -, htext, -, -, -, -, hback⟩ :=
    @Projection.shiftLine_spec
      (Projection.of .units (twoLineItem 5) (Text.ofString "-\ta\n\tb") {} none) 1
      ⟨by decide, by decide⟩ (by decide) 0 2 (by decide) 4 5 (List.replicate 6 0x20)
      (by decide)
  obtain rfl : width = 4 := by
    have := congrArg List.length htext
    rw [List.length_replicate, List.length_replicate] at this
    omega
  exact hback _ (by decide) (by decide) (by decide) (by decide)

end

end Flark
