import Flark.Text
import Mathlib.Data.List.TakeWhile

/-!
# Columns of a line

How the native side goes over the start of a line of a fenced block (`ColCursor`, `prefix_cursor`
and `code_block_lines` of `model.rs`): over the prefixes of the containers that the block is in,
and then over the columns that its fence is indented by. White space goes column by column: a tab
may be taken in part, and the columns left of it are shown as spaces.

The lines are those behind an opening fence. No container begins on them, and a byte order mark or
a checkbox is on none of them. What is gone over is ASCII, so that places in bytes are places in
code units.

* `read`: where the content of a line begins;
* `HasPrefix`: the line has all of its prefix;
* `read_insert`: white space that is put where the content of a line begins is taken in, in part or
  all of it, where the line does not have all of its prefix, and only there.
-/

namespace Flark.Native

/-- A space or a tab. -/
def isSpaceOrTab (u : UInt16) : Bool := u == 0x20 || u == 0x09

/-- `ContainerKind`. -/
inductive ContainerKind
  | quote
  | item
  | footnote
  deriving DecidableEq, Repr

/-- `Container`: `offset` is the column of its content, from that of the container around it. -/
structure Container where
  kind : ContainerKind
  offset : Nat
  deriving DecidableEq, Repr

/-- `ColCursor`: a place of a line, its column, and the columns of a tab that are left. -/
structure ColCursor where
  pos : Nat
  col : Nat
  virt : Nat
  deriving DecidableEq, Repr

/-- `Prefix`: where the prefixes of the containers end, or the first one that a line lacks
    begins. -/
structure Prefix where
  cur : ColCursor
  isLazy : Bool
  deriving DecidableEq, Repr

namespace ColCursor

/-- A cursor at the start of a line. -/
def new : ColCursor := ⟨0, 0, 0⟩

/-- The loop of `consume_columns`, with `left` columns to go, of which a turn takes one at least. -/
def consumeFrom (line : Text) : (turns left : Nat) → ColCursor → ColCursor × Nat
  | 0, left, cur => (cur, left)
  | _ + 1, 0, cur => (cur, 0)
  | turns + 1, left + 1, cur =>
    if 0 < cur.virt then consumeFrom line turns left { cur with virt := cur.virt - 1 }
    else if (line)[cur.pos]? = some 0x20 then
      consumeFrom line turns left { cur with pos := cur.pos + 1, col := cur.col + 1 }
    else if (line)[cur.pos]? = some 0x09 then
      let stop := (cur.col / 4 + 1) * 4
      let width := stop - cur.col
      let take := min width (left + 1)
      consumeFrom line turns (left + 1 - take) ⟨cur.pos + 1, stop, width - take⟩
    else (cur, left + 1)

/-- `consume_columns`: up to `n` columns of white space, and how many there were. -/
def consumeColumns (line : Text) (cur : ColCursor) (n : Nat) : ColCursor × Nat :=
  let (cur, left) := consumeFrom line n n cur
  (cur, n - left)

/-- `skip_whitespace`. -/
def skipWhitespace (line : Text) (cur : ColCursor) : ColCursor :=
  let blanks := (line.drop cur.pos).takeWhile isSpaceOrTab
  { pos := cur.pos + blanks.length
    col := blanks.foldl (fun col u => if u = 0x09 then (col / 4 + 1) * 4 else col + 1) cur.col
    virt := 0 }

/-- Past the marker of a quote, with the column of the space behind it. -/
def pastMarker (line : Text) (cur : ColCursor) : ColCursor :=
  let next : ColCursor := ⟨cur.pos + 1, cur.col + 1, 0⟩
  if (line)[next.pos]? = some 0x20 then ⟨next.pos + 1, next.col + 1, 0⟩
  else if (line)[next.pos]? = some 0x09 then
    let stop := (next.col / 4 + 1) * 4
    ⟨next.pos + 1, stop, stop - next.col - 1⟩
  else next

/-- A turn of the loop of `prefix_cursor`: past the prefix of a container, with the column that the
    content of the container begins at; none where the line lacks the prefix. -/
def enter (line : Text) (cur : ColCursor) (base : Nat) (c : Container) :
    Option (ColCursor × Nat) :=
  match c.kind with
  | .quote =>
    let next := (consumeColumns line cur 3).1
    if next.virt = 0 ∧ (line)[next.pos]? = some 0x3E then
      let next := pastMarker line next
      some (next, next.col - next.virt)
    else none
  | .item =>
    let target := base + c.offset
    let need := target - (cur.col - cur.virt)
    let (next, got) := consumeColumns line cur need
    if got < need then
      if (line.drop cur.pos).all isSpaceOrTab then some (skipWhitespace line cur, target) else none
    else some (next, target)
  | .footnote =>
    let target := base + 4
    let need := target - (cur.col - cur.virt)
    let (next, got) := consumeColumns line cur need
    if got < need then none else some (next, target)

/-- The loop of `prefix_cursor`. -/
def prefixFrom (line : Text) : (cur : ColCursor) → (base : Nat) → List Container → Prefix
  | cur, _, [] => ⟨cur, false⟩
  | cur, base, c :: containers =>
    match enter line cur base c with
    | some (next, base) => prefixFrom line next base containers
    | none => ⟨cur, true⟩

/-- `prefix_cursor`. -/
def prefixCursor (line : Text) (containers : List Container) : Prefix :=
  prefixFrom line new 0 containers

/-- Where the content of a line of a fenced block begins, as `code_block_lines` has it. -/
def read (line : Text) (containers : List Container) (fenceOffset : Nat) : ColCursor :=
  (consumeColumns line (prefixCursor line containers).cur fenceOffset).1

/-- A line has all of the prefix that its content can be behind: all columns that the fence is
    indented by, and the space behind the marker of a quote. -/
def HasPrefix (line : Text) (containers : List Container) (fenceOffset : Nat) : Prop :=
  (consumeColumns line (prefixCursor line containers).cur fenceOffset).2 = fenceOffset ∧
    (line.take (read line containers fenceOffset).pos).getLast? ≠ some 0x3E

instance (line : Text) (containers : List Container) (fenceOffset : Nat) :
    Decidable (HasPrefix line containers fenceOffset) :=
  inferInstanceAs (Decidable (_ ∧ _))

/-! ## White space -/

section

variable {line line' : Text} {turns left n : Nat} {cur : ColCursor}

theorem le_pos_consumeFrom : cur.pos ≤ (consumeFrom line turns left cur).1.pos := by
  induction turns generalizing left cur with
  | zero => exact Nat.le_refl _
  | succ turns ih =>
    cases left with
    | zero => exact Nat.le_refl _
    | succ left =>
      rw [consumeFrom]
      split_ifs
      · exact @ih left { cur with virt := cur.virt - 1 }
      · exact Nat.le_of_lt (@ih left { cur with pos := cur.pos + 1, col := cur.col + 1 })
      · exact Nat.le_of_lt (@ih _ ⟨cur.pos + 1, _, _⟩)
      · exact Nat.le_refl _

theorem blank_of_unit {u : UInt16} (h : isSpaceOrTab u = true) (i : Nat) (hi : (line)[i]? = some u) :
    (line)[i]? = some 0x20 ∨ (line)[i]? = some 0x09 := by
  rw [isSpaceOrTab, Bool.or_eq_true, beq_iff_eq, beq_iff_eq] at h
  exact h.imp (fun h => by rw [hi, h]) fun h => by rw [hi, h]

/-- What is no white space is not gone over. -/
theorem pos_consumeFrom_le (hn : (line)[n]?.any isSpaceOrTab = false) (hle : cur.pos ≤ n) :
    (consumeFrom line turns left cur).1.pos ≤ n := by
  induction turns generalizing left cur with
  | zero => exact hle
  | succ turns ih =>
    cases left with
    | zero => exact hle
    | succ left =>
      have hne (h : (line)[cur.pos]? = some 0x20 ∨ (line)[cur.pos]? = some 0x09) :
          cur.pos + 1 ≤ n := by
        rcases Nat.eq_or_lt_of_le hle with rfl | hlt
        · rcases h with h | h <;> rw [h] at hn <;> exact absurd hn (by decide)
        · exact hlt
      rw [consumeFrom]
      split_ifs with hvirt hspace htab
      · exact ih hle
      · exact ih (hne (.inl hspace))
      · exact ih (hne (.inr htab))
      · exact hle

/-- The unit before a place that is come to over white space is white space. -/
theorem blank_before_consumeFrom (hlt : cur.pos < (consumeFrom line turns left cur).1.pos) :
    (line)[(consumeFrom line turns left cur).1.pos - 1]?.any isSpaceOrTab = true := by
  induction turns generalizing left cur with
  | zero => exact absurd hlt (Nat.lt_irrefl _)
  | succ turns ih =>
    cases left with
    | zero => exact absurd hlt (Nat.lt_irrefl _)
    | succ left =>
      rw [consumeFrom] at hlt ⊢
      split_ifs at hlt ⊢ with hvirt hspace htab
      · exact ih hlt
      · rcases Nat.eq_or_lt_of_le (@le_pos_consumeFrom line turns left
          { cur with pos := cur.pos + 1, col := cur.col + 1 }) with heq | hlt'
        · rw [← heq, Nat.add_sub_cancel, hspace]
          decide
        · exact ih hlt'
      · rcases Nat.eq_or_lt_of_le (@le_pos_consumeFrom line turns _ ⟨cur.pos + 1, _, _⟩) with
          heq | hlt'
        · rw [← heq, Nat.add_sub_cancel, htab]
          decide
        · exact ih hlt'
      · exact absurd hlt (Nat.lt_irrefl _)

/-- Columns are missing only where the white space ends. -/
theorem stuck_consumeFrom (hturns : left ≤ turns) (hleft : (consumeFrom line turns left cur).2 ≠ 0) :
    (consumeFrom line turns left cur).1.virt = 0 ∧
      (line)[(consumeFrom line turns left cur).1.pos]?.any isSpaceOrTab = false := by
  induction turns generalizing left cur with
  | zero => exact absurd (Nat.le_zero.1 hturns) hleft
  | succ turns ih =>
    cases left with
    | zero => exact absurd rfl hleft
    | succ left =>
      rw [consumeFrom] at hleft ⊢
      split_ifs at hleft ⊢ with hvirt hspace htab
      · exact ih (by omega) hleft
      · exact ih (by omega) hleft
      · exact ih (by omega) hleft
      · refine ⟨Nat.eq_zero_of_not_pos hvirt, ?_⟩
        dsimp only
        cases hu : (line)[cur.pos]? with
        | none => rfl
        | some u =>
          refine Bool.eq_false_iff.2 fun hblank => ?_
          rcases blank_of_unit hblank _ hu with h | h
          · exact hspace h
          · exact htab h

/-- Where nothing is to be gone over, a cursor stays. -/
theorem consumeFrom_stuck (hvirt : cur.virt = 0) (hblank : (line)[cur.pos]?.any isSpaceOrTab = false) :
    consumeFrom line turns left cur = (cur, left) := by
  cases turns with
  | zero => rfl
  | succ turns =>
    cases left with
    | zero => rfl
    | succ left =>
      rw [consumeFrom, if_neg (by omega), if_neg fun h => ?_, if_neg fun h => ?_]
      · rw [h] at hblank
        exact absurd hblank (by decide)
      · rw [h] at hblank
        exact absurd hblank (by decide)

/-- Two lines that are the same up to a place are gone over in the same way up to it. -/
theorem consumeFrom_congr (hsame : ∀ i < n, (line')[i]? = (line)[i]?)
    (h : (consumeFrom line turns left cur).2 = 0 ∧ (consumeFrom line turns left cur).1.pos ≤ n ∨
      (consumeFrom line turns left cur).1.pos < n) :
    consumeFrom line' turns left cur = consumeFrom line turns left cur := by
  induction turns generalizing left cur with
  | zero => rfl
  | succ turns ih =>
    cases left with
    | zero => rfl
    | succ left =>
      by_cases hvirt : 0 < cur.virt
      · rw [consumeFrom, if_pos hvirt] at h ⊢
        rw [consumeFrom, if_pos hvirt]
        exact ih h
      -- A column that is missing is looked for at the cursor.
      have hlt : cur.pos < n := by
        rw [consumeFrom, if_neg hvirt] at h
        split_ifs at h with hspace htab
        · have := @le_pos_consumeFrom line turns left
            { cur with pos := cur.pos + 1, col := cur.col + 1 }
          dsimp only at this
          omega
        · have := @le_pos_consumeFrom line turns (left + 1 - min ((cur.col / 4 + 1) * 4 - cur.col)
            (left + 1)) ⟨cur.pos + 1, (cur.col / 4 + 1) * 4, (cur.col / 4 + 1) * 4 - cur.col -
              min ((cur.col / 4 + 1) * 4 - cur.col) (left + 1)⟩
          dsimp only at this h
          omega
        · rcases h with ⟨h, -⟩ | h
          · cases h
          · exact h
      rw [consumeFrom] at h ⊢
      rw [consumeFrom, hsame _ hlt]
      split_ifs at h ⊢ with hspace htab
      · exact ih h
      · exact ih h
      · rfl

/-- Where white space follows a place that one line is gone over up to, the other is gone over
    further. -/
theorem lt_pos_consumeFrom (hsame : ∀ i < n, (line')[i]? = (line)[i]?)
    (hblank : (line')[n]?.any isSpaceOrTab = true) (hturns : left ≤ turns)
    (hpos : (consumeFrom line turns left cur).1.pos = n)
    (hleft : (consumeFrom line turns left cur).2 ≠ 0) :
    n < (consumeFrom line' turns left cur).1.pos := by
  induction turns generalizing left cur with
  | zero => exact absurd (Nat.le_zero.1 hturns) hleft
  | succ turns ih =>
    cases left with
    | zero => exact absurd rfl hleft
    | succ left =>
      have hle : cur.pos ≤ n := hpos ▸ le_pos_consumeFrom
      by_cases hvirt : 0 < cur.virt
      · rw [consumeFrom, if_pos hvirt] at hpos hleft ⊢
        exact ih (by omega) hpos hleft
      rcases Nat.eq_or_lt_of_le hle with rfl | hlt
      · obtain ⟨u, hu, hb⟩ := (Option.any_eq_true _ _).1 hblank
        rw [consumeFrom, if_neg hvirt]
        split_ifs with hspace htab
        · exact @le_pos_consumeFrom line' turns left
            { cur with pos := cur.pos + 1, col := cur.col + 1 }
        · exact @le_pos_consumeFrom line' turns _ ⟨cur.pos + 1, _, _⟩
        · exact absurd (blank_of_unit hb _ hu) (not_or.2 ⟨hspace, htab⟩)
      · rw [consumeFrom, if_neg hvirt] at hpos hleft ⊢
        rw [hsame _ hlt]
        split_ifs at hpos hleft ⊢ with hspace htab
        · exact ih (by omega) hpos hleft
        · exact ih (by omega) hpos hleft
        · exact absurd hpos (Nat.ne_of_lt hlt)

theorem left_consumeFrom_le : (consumeFrom line turns left cur).2 ≤ left := by
  induction turns generalizing left cur with
  | zero => exact Nat.le_refl _
  | succ turns ih =>
    cases left with
    | zero => exact Nat.le_refl _
    | succ left =>
      rw [consumeFrom]
      split_ifs
      · exact Nat.le_succ_of_le ih
      · exact Nat.le_succ_of_le ih
      · exact Nat.le_trans ih (Nat.sub_le _ _)
      · exact Nat.le_refl _

/-- Fewer columns than asked for. -/
theorem consumeColumns_lt :
    (consumeColumns line cur n).2 < n ↔ (consumeFrom line n n cur).2 ≠ 0 := by
  have := @left_consumeFrom_le line n n cur
  change n - (consumeFrom line n n cur).2 < n ↔ _
  omega

theorem consumeColumns_congr {m : Nat} (hsame : ∀ i < n, (line')[i]? = (line)[i]?)
    (h : ¬(consumeColumns line cur m).2 < m ∧ (consumeColumns line cur m).1.pos ≤ n ∨
      (consumeColumns line cur m).1.pos < n) :
    consumeColumns line' cur m = consumeColumns line cur m := by
  rw [consumeColumns_lt, not_not] at h
  rw [consumeColumns, consumeColumns, consumeFrom_congr hsame h]

end

/-! ## The prefixes of the containers -/

section

variable {line : Text} {cur next : ColCursor} {base base' : Nat} {c : Container}
  {containers : List Container}

theorem lt_pos_pastMarker : cur.pos < (pastMarker line cur).pos := by
  rw [pastMarker]
  dsimp only
  split_ifs
  · exact Nat.lt_succ_of_lt (Nat.lt_succ_self _)
  · exact Nat.lt_succ_of_lt (Nat.lt_succ_self _)
  · exact Nat.lt_succ_self _

/-- Behind the marker of a quote one column of white space is taken with it, -/
theorem pos_pastMarker_of_blank (h : (line)[cur.pos + 1]?.any isSpaceOrTab = true) :
    (pastMarker line cur).pos = cur.pos + 2 := by
  obtain ⟨u, hu, hb⟩ := (Option.any_eq_true _ _).1 h
  rw [pastMarker]
  dsimp only
  split_ifs with hspace htab
  · rfl
  · rfl
  · exact absurd (blank_of_unit hb _ hu) (not_or.2 ⟨hspace, htab⟩)

/-- and nothing else. -/
theorem pastMarker_of_not_blank (h : (line)[cur.pos + 1]?.any isSpaceOrTab = false) :
    pastMarker line cur = ⟨cur.pos + 1, cur.col + 1, 0⟩ := by
  rw [pastMarker]
  dsimp only
  rw [if_neg fun hspace => ?_, if_neg fun htab => ?_]
  · rw [htab] at h
    exact absurd h (by decide)
  · rw [hspace] at h
    exact absurd h (by decide)

theorem pastMarker_congr {line' : Text} (h : (line')[cur.pos + 1]? = (line)[cur.pos + 1]?) :
    pastMarker line' cur = pastMarker line cur := by
  rw [pastMarker, pastMarker]
  dsimp only
  rw [h]

/-- The ways past a container's prefix. -/
theorem enter_cases (h : enter line cur base c = some (next, base')) :
    (c.kind = .quote ∧ (consumeColumns line cur 3).1.virt = 0 ∧
        (line)[(consumeColumns line cur 3).1.pos]? = some 0x3E ∧
        next = pastMarker line (consumeColumns line cur 3).1 ∧ base' = next.col - next.virt) ∨
      (c.kind = .item ∧ base' = base + c.offset ∧ (line.drop cur.pos).all isSpaceOrTab = true ∧
        next = skipWhitespace line cur) ∨
      c.kind ≠ .quote ∧ base' = base + (if c.kind = .item then c.offset else 4) ∧
        next = (consumeColumns line cur (base' - (cur.col - cur.virt))).1 ∧
        ¬(consumeColumns line cur (base' - (cur.col - cur.virt))).2 <
          base' - (cur.col - cur.virt) := by
  cases hkind : c.kind with
  | quote =>
    simp only [enter, hkind] at h
    split_ifs at h with hmarker
    cases h
    exact .inl ⟨rfl, hmarker.1, hmarker.2, rfl, rfl⟩
  | item =>
    simp only [enter, hkind] at h
    split_ifs at h with hgot hblank
    · cases h
      exact .inr (.inl ⟨rfl, rfl, hblank, rfl⟩)
    · cases h
      exact .inr (.inr ⟨by decide, rfl, rfl, hgot⟩)
  | footnote =>
    simp only [enter, hkind] at h
    split_ifs at h with hgot
    cases h
    exact .inr (.inr ⟨by decide, rfl, rfl, hgot⟩)

theorem le_pos_enter (h : enter line cur base c = some (next, base')) : cur.pos ≤ next.pos := by
  rcases enter_cases h with ⟨-, -, -, rfl, -⟩ | ⟨-, -, -, rfl⟩ | ⟨-, -, rfl, -⟩
  · exact Nat.le_trans (@le_pos_consumeFrom line 3 3 cur) (Nat.le_of_lt lt_pos_pastMarker)
  · exact Nat.le_add_right _ _
  · exact le_pos_consumeFrom

theorem le_pos_prefixFrom : cur.pos ≤ (prefixFrom line cur base containers).cur.pos := by
  induction containers generalizing cur base with
  | nil => exact Nat.le_refl _
  | cons c containers ih =>
    rw [prefixFrom]
    cases henter : enter line cur base c with
    | none => exact Nat.le_refl _
    | some next => exact Nat.le_trans (le_pos_enter henter) ih

end

/-! ## White space where the content begins -/

section

variable {line line' : Text} {n k : Nat} {cur next : ColCursor} {base base' : Nat} {c : Container}
  {containers : List Container}

theorem getLast?_take {i : Nat} {u : UInt16} (h : (line)[i]? = some u) :
    (line.take (i + 1)).getLast? = some u := by
  rw [List.take_add_one, h, Option.toList_some, List.getLast?_concat]

/-- Behind white space that is gone over, no marker is the unit before. -/
theorem unmarked_consumeColumns {m : Nat}
    (hbare : cur.pos = n → (line.take n).getLast? ≠ some 0x3E)
    (hpos : (consumeColumns line cur m).1.pos = n) : (line.take n).getLast? ≠ some 0x3E := by
  have hle : cur.pos ≤ n := hpos ▸ le_pos_consumeFrom
  rcases Nat.eq_or_lt_of_le hle with heq | hlt
  · exact hbare heq
  have hblank : (line)[n - 1]?.any isSpaceOrTab = true := by
    rw [← hpos] at hlt ⊢
    exact blank_before_consumeFrom hlt
  obtain ⟨u, hu, hb⟩ := (Option.any_eq_true _ _).1 hblank
  have hlast := getLast?_take hu
  rw [Nat.sub_add_cancel (Nat.lt_of_le_of_lt (Nat.zero_le _) hlt)] at hlast
  rw [hlast]
  intro hmarker
  rw [Option.some.inj hmarker] at hb
  exact absurd hb (by decide)

variable (hsame : ∀ i < n, (line')[i]? = (line)[i]?) (hblank : (line')[n]?.any isSpaceOrTab = true)
  (hn : n < line.length)

include hsame hblank hn

/-- The marker of a quote on a line that has white space put at a place behind it: what is behind
    the marker stays, or the marker takes the first column of the white space as its own. -/
theorem pastMarker_insert (hmarker : (line)[cur.pos]? = some 0x3E) (hlt : cur.pos < n)
    (hle : (pastMarker line cur).pos ≤ n) :
    (pastMarker line' cur = pastMarker line cur ∧
        ((pastMarker line cur).pos = n → (line.take n).getLast? ≠ some 0x3E)) ∨
      (pastMarker line cur = ⟨n, cur.col + 1, 0⟩ ∧ (line)[n]?.any isSpaceOrTab = false ∧
        (line.take n).getLast? = some 0x3E ∧ (pastMarker line' cur).pos = n + 1) := by
  rcases Nat.lt_or_eq_of_le (Nat.succ_le_of_lt hlt) with hlt' | rfl
  · -- What stands behind the marker is the same.
    refine .inl ⟨pastMarker_congr (hsame _ hlt'), fun hpos => ?_⟩
    cases hb : (line)[cur.pos + 1]?.any isSpaceOrTab with
    | true =>
      obtain ⟨u, hu, hb'⟩ := (Option.any_eq_true _ _).1 hb
      rw [← hpos, pos_pastMarker_of_blank hb, getLast?_take hu]
      rintro h
      rw [Option.some.inj h] at hb'
      exact absurd hb' (by decide)
    | false =>
      rw [pastMarker_of_not_blank hb] at hpos
      exact absurd hpos hlt'.ne
  · -- The marker stands before the place, so that no column was taken with it.
    have hbare : (line)[cur.pos + 1]?.any isSpaceOrTab = false := by
      refine Bool.eq_false_iff.2 fun hb => ?_
      rw [pos_pastMarker_of_blank hb] at hle
      omega
    exact .inr ⟨pastMarker_of_not_blank hbare, hbare, getLast?_take hmarker,
      pos_pastMarker_of_blank hblank⟩

/-- A container's prefix on a line that has white space put at a place behind it: it is the same,
    or the marker of a quote takes the first column of the white space as its own. -/
theorem enter_insert (h : enter line cur base c = some (next, base')) (hle : next.pos ≤ n)
    (hbare : cur.pos = n → (line.take n).getLast? ≠ some 0x3E) :
    (enter line' cur base c = some (next, base') ∧
        (next.pos = n → (line.take n).getLast? ≠ some 0x3E)) ∨
      (next = ⟨n, base', 0⟩ ∧ (line)[n]?.any isSpaceOrTab = false ∧
        (line.take n).getLast? = some 0x3E ∧
        ∃ past : ColCursor, enter line' cur base c = some (past, past.col - past.virt) ∧
          past.pos = n + 1) := by
  -- A quote has its marker in front of the place, and may take the column behind it. An item on a
  -- blank line goes past the place. Any other container takes columns in front of it.
  rcases enter_cases h with ⟨hkind, hvirt, hmarker, rfl, rfl⟩ | ⟨-, -, hall, hnext⟩ |
    ⟨hkind, hbase, hnext, hgot⟩
  · obtain ⟨at_, hat⟩ : ∃ at_, at_ = (consumeColumns line cur 3).1 := ⟨_, rfl⟩
    rw [← hat] at hvirt hmarker hle ⊢
    have hlt : at_.pos < n := lt_pos_pastMarker.trans_le hle
    have hsame' : (consumeColumns line' cur 3).1 = at_ := by
      rw [consumeColumns_congr hsame (.inr (hat ▸ hlt)), hat]
    have hmarker' : (line')[at_.pos]? = some 0x3E := by rw [hsame _ hlt, hmarker]
    have henter : enter line' cur base c =
        some (pastMarker line' at_, (pastMarker line' at_).col - (pastMarker line' at_).virt) := by
      simp only [enter, hkind, hsame', hvirt, hmarker', and_self, if_true]
    rcases pastMarker_insert hsame hblank hn hmarker hlt hle with
      ⟨hpast, hunmarked⟩ | ⟨hpast, hbehind, hlast, hpos⟩
    · exact .inl ⟨by rw [henter, hpast], hunmarked⟩
    · exact .inr ⟨by rw [hpast]; rfl, hbehind, hlast, _, henter, hpos⟩
  · -- A line that is all blank is gone over up to its end.
    have hblanks : (line.drop cur.pos).takeWhile isSpaceOrTab = line.drop cur.pos :=
      List.takeWhile_eq_self_iff.2 (List.all_eq_true.1 hall)
    rw [hnext, skipWhitespace, hblanks, List.length_drop] at hle
    dsimp only at hle
    omega
  · left
    have hsame' := consumeColumns_congr hsame (.inl ⟨hgot, hnext ▸ hle⟩)
    refine ⟨?_, fun hpos => unmarked_consumeColumns hbare (hnext ▸ hpos)⟩
    cases hkind' : c.kind with
    | quote => exact absurd hkind' hkind
    | item =>
      rw [hkind', if_pos rfl] at hbase
      simp only [enter, hkind']
      rw [← hbase, hsame', if_neg hgot, hnext]
    | footnote =>
      rw [hkind', if_neg (by decide)] at hbase
      simp only [enter, hkind']
      rw [← hbase, hsame', if_neg hgot, hnext]

omit hsame hblank in
/-- Behind the marker of a quote with nothing that is white space behind it, only an item without a
    column of its own can follow. -/
theorem enter_marked (hstop : (line)[n]?.any isSpaceOrTab = false)
    (h : enter line ⟨n, base, 0⟩ base c = some (next, base')) (hle : next.pos ≤ n) :
    next = ⟨n, base', 0⟩ ∧ c.kind = .item ∧ c.offset = 0 ∧ base' = base := by
  have hstuck (m : Nat) : consumeColumns line ⟨n, base, 0⟩ m = (⟨n, base, 0⟩, 0) := by
    rw [consumeColumns, consumeFrom_stuck rfl hstop]
    exact congrArg (Prod.mk _) (Nat.sub_self m)
  rcases enter_cases h with ⟨-, -, -, hnext, -⟩ | ⟨-, -, hall, -⟩ | ⟨hkind, hbase, hnext, hgot⟩
  · have := @lt_pos_pastMarker line (consumeColumns line ⟨n, base, 0⟩ 3).1
    rw [hnext] at hle
    rw [hstuck] at this hle
    exact absurd this (Nat.not_lt.2 hle)
  · have hunit := List.getElem?_eq_getElem hn
    rw [hunit, Option.any_some] at hstop
    rw [List.drop_eq_getElem_cons hn, List.all_cons, hstop, Bool.false_and] at hall
    cases hall
  · rw [hstuck] at hnext hgot
    dsimp only at hnext hgot
    have hzero : (if c.kind = .item then c.offset else 4) = 0 := by omega
    split_ifs at hzero hbase with hitem
    rw [hzero] at hbase
    exact ⟨hbase ▸ hnext, hitem, hzero, hbase⟩

omit hsame hblank in
/-- The containers behind such a marker take no column, wherever the marker's own space ends. -/
theorem prefixFrom_marked (hstop : (line)[n]?.any isSpaceOrTab = false)
    (h : prefixFrom line ⟨n, base, 0⟩ base containers = ⟨next, false⟩) (hle : next.pos ≤ n) :
    next = ⟨n, base, 0⟩ ∧ ∀ past : ColCursor,
      prefixFrom line' past (past.col - past.virt) containers = ⟨past, false⟩ := by
  induction containers with
  | nil =>
    rw [prefixFrom, Prefix.mk.injEq] at h
    exact ⟨h.1.symm, fun _ => rfl⟩
  | cons c containers ih =>
    rw [prefixFrom] at h
    cases henter : enter line ⟨n, base, 0⟩ base c with
    | none =>
      rw [henter] at h
      cases h
    | some entered =>
      obtain ⟨entered, base'⟩ := entered
      rw [henter] at h
      dsimp only at h
      have hpos := @le_pos_prefixFrom line entered base' containers
      rw [h] at hpos
      obtain ⟨rfl, hitem, hoffset, rfl⟩ :=
        enter_marked hn hstop henter (Nat.le_trans hpos hle)
      obtain ⟨hnext, hrest⟩ := ih h
      refine ⟨hnext, fun past => ?_⟩
      have hstay : enter line' past (past.col - past.virt) c =
          some (past, past.col - past.virt) := by
        simp only [enter, hitem, hoffset, Nat.add_zero, Nat.sub_self]
        rw [if_neg (Nat.not_lt_zero _)]
        rfl
      rw [prefixFrom, hstay]
      exact hrest past

/-- The prefixes of all containers. -/
theorem prefixFrom_insert (h : prefixFrom line cur base containers = ⟨next, false⟩)
    (hle : next.pos ≤ n) (hbare : cur.pos = n → (line.take n).getLast? ≠ some 0x3E) :
    (prefixFrom line' cur base containers = ⟨next, false⟩ ∧
        (next.pos = n → (line.take n).getLast? ≠ some 0x3E)) ∨
      (next.pos = n ∧ next.virt = 0 ∧ (line)[n]?.any isSpaceOrTab = false ∧
        (line.take n).getLast? = some 0x3E ∧
        (prefixFrom line' cur base containers).cur.pos = n + 1) := by
  induction containers generalizing cur base with
  | nil =>
    rw [prefixFrom, Prefix.mk.injEq] at h
    rw [← h.1]
    exact .inl ⟨rfl, hbare⟩
  | cons c containers ih =>
    rw [prefixFrom] at h
    cases henter : enter line cur base c with
    | none =>
      rw [henter] at h
      cases h
    | some entered =>
      obtain ⟨entered, base'⟩ := entered
      rw [henter] at h
      dsimp only at h
      have hpos := @le_pos_prefixFrom line entered base' containers
      rw [h] at hpos
      rw [prefixFrom]
      rcases enter_insert hsame hblank hn henter (Nat.le_trans hpos hle) hbare with
        ⟨henter', hbare'⟩ | ⟨rfl, hstop, hmarked, past, henter', hpast⟩
      · rw [henter']
        exact ih h hbare'
      · obtain ⟨rfl, hrest⟩ := @prefixFrom_marked _ line' _ _ _ _ hn hstop h hle
        rw [henter']
        dsimp only
        rw [hrest past]
        exact .inr ⟨rfl, rfl, hstop, hmarked, hpast⟩

end

/-- A line of a fenced block that has white space put where its content begins. Where the line has
    all of its prefix, the content begins with the white space. Otherwise the prefix takes some or
    all of it in, of a line whose content begins with none. -/
theorem read_insert {A piece l : Text} {containers : List Container} {fenceOffset : Nat}
    (hl : l ≠ []) (hpiece : piece ≠ []) (hblank : ∀ u ∈ piece, isSpaceOrTab u = true)
    (hlazy : (prefixCursor (A ++ l) containers).isLazy = false)
    (hread : (read (A ++ l) containers fenceOffset).pos = A.length) :
    (HasPrefix (A ++ l) containers fenceOffset ∧
        (read (A ++ piece ++ l) containers fenceOffset).pos = A.length) ∨
      (¬HasPrefix (A ++ l) containers fenceOffset ∧ l.head?.any isSpaceOrTab = false ∧
        A.length < (read (A ++ piece ++ l) containers fenceOffset).pos ∧
        (read (A ++ piece ++ l) containers fenceOffset).pos ≤ A.length + piece.length) := by
  obtain ⟨line, hline⟩ : ∃ line, line = A ++ l := ⟨_, rfl⟩
  obtain ⟨line', hline'⟩ : ∃ line', line' = A ++ piece ++ l := ⟨_, rfl⟩
  rw [← hline] at hlazy hread
  rw [← hline, ← hline']
  have hn : A.length < line.length := by
    rw [hline, List.length_append]
    have := List.length_pos_of_ne_nil hl
    omega
  have hsame : ∀ i < A.length, (line')[i]? = (line)[i]? := fun i hi => by
    rw [hline, hline', List.append_assoc, List.getElem?_append_left hi,
      List.getElem?_append_left hi]
  have hput : (line')[A.length]?.any isSpaceOrTab = true := by
    obtain ⟨u, piece, rfl⟩ := List.exists_cons_of_ne_nil hpiece
    rw [hline', List.append_assoc, List.getElem?_append_right (Nat.le_refl _), Nat.sub_self]
    exact hblank u List.mem_cons_self
  have hhead : (line)[A.length]? = l.head? := by
    rw [hline, List.getElem?_append_right (Nat.le_refl _), Nat.sub_self, List.head?_eq_getElem?]
  have hbehind : (line')[A.length + piece.length]? = l.head? := by
    rw [hline', ← List.length_append, List.getElem?_append_right (Nat.le_refl _), Nat.sub_self,
      List.head?_eq_getElem?]
  have hpos := List.length_pos_of_ne_nil hpiece
  -- Up to the end of the white space that is put there, and no further.
  have hupto (cur : ColCursor) (hcur : cur.pos ≤ A.length + piece.length)
      (hstop : l.head?.any isSpaceOrTab = false) :
      (consumeColumns line' cur fenceOffset).1.pos ≤ A.length + piece.length :=
    pos_consumeFrom_le (hbehind ▸ hstop) hcur
  rw [prefixCursor] at hlazy
  cases hcursor : prefixFrom line new 0 containers with
  | mk cur isLazy =>
  rw [hcursor] at hlazy
  obtain rfl : isLazy = false := hlazy
  have hcur : read line containers fenceOffset = (consumeColumns line cur fenceOffset).1 := by
    rw [read, prefixCursor, hcursor]
  have hiff : HasPrefix line containers fenceOffset ↔
      ¬(consumeColumns line cur fenceOffset).2 < fenceOffset ∧
        (line.take A.length).getLast? ≠ some 0x3E := by
    have hsub : (consumeColumns line cur fenceOffset).2 ≤ fenceOffset := Nat.sub_le _ _
    rw [HasPrefix, hread, prefixCursor, hcursor]
    refine and_congr_left fun _ => ?_
    dsimp only
    omega
  rw [hcur] at hread
  have hle : cur.pos ≤ A.length := hread ▸ le_pos_consumeFrom
  rw [hiff, read, prefixCursor]
  rcases prefixFrom_insert hsame hput hn hcursor hle (fun hzero => by
      rw [← hzero, show line.take new.pos = [] from List.take_zero]
      decide) with ⟨hcursor', hbare⟩ | ⟨hplace, hvirt, hstop, hmarked, hpast⟩
  · rw [hcursor']
    dsimp only
    by_cases hgot : (consumeColumns line cur fenceOffset).2 < fenceOffset
    · -- Columns that the fence is indented by are missing.
      have hleft := consumeColumns_lt.1 hgot
      obtain ⟨-, hstop⟩ := stuck_consumeFrom (Nat.le_refl _) hleft
      have hstop' : l.head?.any isSpaceOrTab = false := by
        rw [← hhead, ← hread]
        exact hstop
      exact .inr ⟨fun h => h.1 hgot, hstop',
        lt_pos_consumeFrom hsame hput (Nat.le_refl _) hread hleft,
        hupto cur (Nat.le_trans hle (Nat.le_add_right _ _)) hstop'⟩
    · left
      rw [consumeColumns_congr hsame (.inl ⟨hgot, Nat.le_of_eq hread⟩)]
      exact ⟨⟨hgot, unmarked_consumeColumns hbare hread⟩, hread⟩
  · -- The space behind the marker of a quote is missing.
    right
    have hstop' : l.head?.any isSpaceOrTab = false := hhead ▸ hstop
    have hge : (prefixFrom line' new 0 containers).cur.pos ≤
        (consumeColumns line' (prefixFrom line' new 0 containers).cur fenceOffset).1.pos :=
      le_pos_consumeFrom
    refine ⟨fun h => h.2 hmarked, hstop', ?_, hupto _ ?_ hstop'⟩
    · omega
    · omega

/-- The marker of a quote takes a column of the tab that is put behind it. -/
example : read (Text.ofString ">x") [⟨.quote, 0⟩] 0 = ⟨1, 1, 0⟩ ∧
    read (Text.ofString ">\tx") [⟨.quote, 0⟩] 0 = ⟨2, 4, 2⟩ := by decide

end ColCursor

end Flark.Native
