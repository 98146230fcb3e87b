import Flark.Native.Str

/-!
# Escaped pipes

In a table cell, and in a paragraph split to make a table header, each `\|` whose backslash is not
itself escaped loses the backslash before inlines are parsed. Three readings of that rule:

* `unescapePipes` and `unescapesTo`: the text without the backslashes, and the test of it that
  does not build it (`unescapesTo_eq`);
* `PipeCounts`: how many backslashes are removed in a range, from counts that are extended on
  demand; any sequence of queries is answered as a fresh count of each range is
  (`PipeCounts.answers_eq`);
* `pipeShift`: the source offset of an offset behind such removals, by iteration to a fixed point
  (`shiftLoop_spec`), which undoes them (`pipes_inverted`).
-/

namespace Flark.Native

/-! ## The text without the backslashes -/

/-- `unescape_pipes`. -/
def unescapePipes : Str → Str
  | [] => []
  | '\\' :: '|' :: s => '|' :: unescapePipes s
  | '\\' :: c :: s => '\\' :: c :: unescapePipes s
  | c :: s => c :: unescapePipes s

/-- `l.get(a..b)`, which is `none` where `l[a..b]` panics. -/
def getRange (l : List UInt8) (a b : Nat) : Option (List UInt8) :=
  if b ≤ l.length then some ((l.take b).drop a) else none

/-- The turns of `unescapes_to`. -/
def unescapesFrom (slice : Str) (l : List UInt8) : (turns i j : Nat) → Option Bool
  | 0, _, _ => none
  | turns + 1, i, j =>
    let s := utf8 slice
    match s[i]? with
    | none => some (decide (j = l.length))
    | some b => do
      if b = 0x5C ∧ s[i + 1]? = some 0x7C then
        unescapesFrom slice l turns (i + 1) j
      else
        -- Before anything but a pipe, the backslash is kept with what it escapes.
        let take ← if b = 0x5C ∧ (s[i + 1]?).isSome then do
            pure (1 + ((← Str.sliceFrom slice (i + 1)).head?.map Char.utf8Size).getD 0)
          else pure 1
        if getRange l j (j + take) ≠ some (← getRange s i (i + take)) then return false
        unescapesFrom slice l turns (i + take) (j + take)

/-- `unescapes_to`: whether `unescape_pipes` of a slice is a literal. -/
def unescapesTo (slice literal : Str) : Option Bool :=
  unescapesFrom slice (utf8 literal) (Str.len slice + 1) 0 0

/-! ## The counts -/

/-- Whether the byte after some bytes is escaped, where `last` says whether their first one is. -/
def escapes : (last : Bool) → List UInt8 → Bool
  | last, [] => last
  | last, b :: bytes => escapes (!last && b = 0x5C) bytes

/-- The escaped pipes of some bytes, of which `last` says whether the first one is escaped. -/
def escapedPipes : (last : Bool) → List UInt8 → Nat
  | _, [] => 0
  | last, b :: bytes =>
    (if last = true ∧ b = 0x7C then 1 else 0) + escapedPipes (!last && b = 0x5C) bytes

/-- The escaped pipes of a range of the source, from where nothing is escaped. -/
def freshCount (src : List UInt8) (start upto : Nat) : Nat :=
  escapedPipes false ((src.drop start).take (upto - start))

/-- `PipeCounts`: `counts[i]` holds the backslashes removed in `origin..origin + i`. -/
structure PipeCounts where
  origin : Nat
  lastWasBackslash : Bool
  counts : List UInt32
  deriving DecidableEq, Inhabited, Repr

namespace PipeCounts

/-- `PipeCounts::default`. -/
def empty : PipeCounts := ⟨0, false, []⟩

/-- A turn of the loop of `removed`: count one more byte. -/
def count (pc : PipeCounts) (b : UInt8) : PipeCounts :=
  let n := pc.counts.getLastD 0
  if pc.lastWasBackslash then
    ⟨pc.origin, false, pc.counts ++ [if b = 0x7C then n + 1 else n]⟩
  else ⟨pc.origin, b = 0x5C, pc.counts ++ [n]⟩

/-- The loop of `removed`: count so many more bytes. -/
def extend (src : List UInt8) : (turns : Nat) → (pc : PipeCounts) → Option PipeCounts
  | 0, pc => some pc
  | turns + 1, pc => do
    extend src turns (pc.count (← src[pc.origin + pc.counts.length - 1]?))

/-- `PipeCounts::removed`: the backslashes removed in `start..upto`, counting from a leaf whose
    escapes start at `origin`, and the counts after. -/
def removed (pc : PipeCounts) (src : List UInt8) (origin start upto : Nat) :
    Option (Nat × PipeCounts) := do
  let pc := if pc.origin ≠ origin ∨ pc.counts = [] then ⟨origin, false, [0]⟩ else pc
  let upto := max (min upto src.length) start
  let pc ← extend src (upto + 1 - (pc.origin + pc.counts.length)) pc
  if start < origin then none
  else return (((← pc.counts[upto - origin]?) - (← pc.counts[start - origin]?)).toNat, pc)

/-- A query of the counts: the leaf's start, and the range. -/
structure Query where
  origin : Nat
  start : Nat
  upto : Nat
  deriving DecidableEq, Repr

/-- The answers to queries that are made one after the other. -/
def answers (src : List UInt8) : (pc : PipeCounts) → List Query → Option (List Nat)
  | _, [] => some []
  | pc, q :: queries => do
    let (n, pc) ← pc.removed src q.origin q.start q.upto
    return n :: (← answers src pc queries)

end PipeCounts

/-! ## The shift -/

/-- The loop of `pipe_shift`, for a number of turns at most. -/
def shiftLoop (src : List UInt8) (origin start byte : Nat) :
    (turns : Nat) → (pc : PipeCounts) → (b k₀ : Nat) → Option (Nat × PipeCounts)
  | 0, _, _, _ => none
  | turns + 1, pc, b, k₀ => do
    -- A backslash at `b - 1` whose pipe sits at `b` was removed too: count through `b + 1`.
    let (k, pc) ← pc.removed src origin start (b + 1)
    if k = k₀ then return (b, pc)
    shiftLoop src origin start byte turns pc (byte + k) k

/-- Where the escapes before a byte that is in a cell are counted from: its leaf's start or its
    line's. -/
def countedFrom (src : List UInt8) (li : LineIndex) (byte cellStart : Nat) : Nat :=
  max cellStart (li.lineStart (li.lineOf (min byte src.length)))

/-- `Extractor::pipe_shift`, where `cell` is the start of the byte's cell, if it is in one. -/
def pipeShift (src : List UInt8) (li : LineIndex) (pc : PipeCounts) (byte : Nat)
    (cell : Option Nat) : Option (Nat × PipeCounts) :=
  match cell with
  | none => some (byte, pc)
  | some cellStart =>
    shiftLoop src cellStart (countedFrom src li byte cellStart) byte (src.length + 2) pc byte 0

/-! ## Runs of the toggle -/

theorem escapes_append (last : Bool) (a b : List UInt8) :
    escapes last (a ++ b) = escapes (escapes last a) b := by
  induction a generalizing last with
  | nil => rfl
  | cons c a ih => exact ih _

theorem escapedPipes_append (last : Bool) (a b : List UInt8) :
    escapedPipes last (a ++ b) = escapedPipes last a + escapedPipes (escapes last a) b := by
  induction a generalizing last with
  | nil => exact (Nat.zero_add _).symm
  | cons c a ih =>
    rw [List.cons_append, escapedPipes, ih, escapedPipes, escapes, Nat.add_assoc]

theorem escapedPipes_le_length (last : Bool) (a : List UInt8) :
    escapedPipes last a ≤ a.length := by
  induction a generalizing last with
  | nil => exact le_rfl
  | cons c a ih =>
    have := ih (!last && decide (c = 0x5C))
    rw [escapedPipes, List.length_cons]
    split <;> omega

/-- After a byte that is no backslash nothing is escaped. -/
theorem escapes_eq_false {last : Bool} {a : List UInt8} {b : UInt8} (h : a.getLast? = some b)
    (hb : b ≠ 0x5C) : escapes last a = false := by
  obtain ⟨a, rfl⟩ := List.getLast?_eq_some_iff.1 h
  rw [escapes_append, escapes, escapes, decide_eq_false hb, Bool.and_false]

/-- A scalar is escaped, or escapes what follows, by its first byte. -/
theorem escapedPipes_scalar (last : Bool) (c : Char) (rest : List UInt8) :
    escapedPipes last (String.utf8EncodeChar c ++ rest) =
      (if last = true ∧ c = '|' then 1 else 0) +
        escapedPipes (!last && c = '\\') rest ∧
    escapes last (String.utf8EncodeChar c ++ rest) = escapes (!last && c = '\\') rest := by
  have hwide : ∀ (l : List UInt8), (∀ b ∈ l, 0x80 ≤ b.toNat) →
      escapedPipes false (l ++ rest) = escapedPipes false rest ∧
        escapes false (l ++ rest) = escapes false rest := fun l hl => by
    induction l with
    | nil => exact ⟨rfl, rfl⟩
    | cons b l ih =>
      have hb := hl b List.mem_cons_self
      have hne : b ≠ 0x5C := by
        rintro rfl
        exact absurd hb (by decide)
      rw [List.cons_append, escapedPipes, escapes, decide_eq_false hne, Bool.and_false]
      obtain ⟨h₁, h₂⟩ := ih fun b' hb' => hl b' (List.mem_cons_of_mem _ hb')
      exact ⟨by simp [h₁], h₂⟩
  obtain ⟨b, more, hbytes, hb⟩ := utf8EncodeChar_spec c
  have hpipe : b = 0x7C ↔ c = '|' := Str.head_eq_iff hbytes '|' (by decide)
  have hslash : b = 0x5C ↔ c = '\\' := Str.head_eq_iff hbytes '\\' (by decide)
  rw [hbytes, List.cons_append, escapedPipes, escapes]
  simp only [hpipe, hslash]
  rcases hb with ⟨-, rfl, -⟩ | ⟨hhigh, hrange⟩
  · exact ⟨rfl, rfl⟩
  · have hne : c ≠ '\\' := by
      rintro rfl
      rw [show '\\'.toNat = 0x5C from rfl] at hrange
      omega
    obtain ⟨h₁, h₂⟩ := hwide more (List.forall_mem_cons.1 hhigh).2
    rw [decide_eq_false hne, Bool.and_false, h₁, h₂]
    exact ⟨rfl, rfl⟩

/-- What is removed is what the text is shorter by. -/
theorem len_unescapePipes (s : Str) :
    Str.len (unescapePipes s) + escapedPipes false (utf8 s) = Str.len s := by
  induction s using unescapePipes.induct with
  | case1 => rfl
  | case2 s ih =>
    rw [unescapePipes, utf8_cons, (escapedPipes_scalar _ _ _).1, utf8_cons,
      (escapedPipes_scalar _ _ _).1]
    simp only [Str.len_cons, Bool.not_false, Bool.true_and, decide_true, Bool.not_true,
      Bool.false_and, Bool.false_eq_true, false_and, if_false, and_self, if_true]
    have : '\\'.utf8Size = 1 := by decide
    omega
  | case3 c s hc ih =>
    rw [unescapePipes.eq_3 _ _ hc, utf8_cons, (escapedPipes_scalar _ _ _).1, utf8_cons,
      (escapedPipes_scalar _ _ _).1]
    simp only [Str.len_cons, Bool.not_false, Bool.true_and, decide_true, Bool.not_true,
      Bool.false_and, Bool.false_eq_true, false_and, if_false, true_and, if_neg hc]
    omega
  | case4 c s h₁ h₂ ih =>
    have hescape : escapedPipes (decide (c = '\\')) (utf8 s) = escapedPipes false (utf8 s) := by
      by_cases hc : c = '\\'
      · cases s with
        | nil => rfl
        | cons d s => exact absurd rfl (h₂ d s hc)
      · rw [decide_eq_false hc]
    rw [unescapePipes.eq_4 _ _ h₁ h₂, utf8_cons, (escapedPipes_scalar _ _ _).1]
    simp only [Str.len_cons, Bool.not_false, Bool.true_and, Bool.false_eq_true, false_and,
      if_false, hescape]
    omega

/-! ## The test -/

theorem getRange_eq_some {l piece : List UInt8} {a n : Nat} :
    getRange l a (a + n) = some piece ↔
      ∃ rest, l.drop a = piece ++ rest ∧ piece.length = n ∧ a ≤ l.length := by
  rw [getRange]
  split
  · next hle =>
    have hsplit : (l.take (a + n)).drop a = (l.drop a).take n := by
      rw [List.drop_take, Nat.add_sub_cancel_left]
    rw [hsplit, Option.some_inj]
    constructor
    · rintro rfl
      refine ⟨(l.drop a).drop n, (List.take_append_drop _ _).symm, ?_, by omega⟩
      rw [List.length_take, List.length_drop]
      omega
    · rintro ⟨rest, hrest, rfl, -⟩
      rw [hrest, List.take_left]
  · next hle =>
    refine ⟨(fun h => by cases h), ?_⟩
    rintro ⟨rest, hrest, rfl, ha⟩
    have := congrArg List.length hrest
    rw [List.length_drop, List.length_append] at this
    omega

/-- A turn that compares what stands at both offsets. -/
theorem compare_spec {s l rest want : List UInt8} {i j : Nat} {more : Option Bool}
    (piece : List UInt8)    (hs : s.drop i = piece ++ rest) (hi : i ≤ s.length) (hj : j ≤ l.length)
    (hmore : j + piece.length ≤ l.length → more = some (decide (want = l.drop (j + piece.length)))) :
    ((getRange s i (i + piece.length)).bind fun taken =>
      if getRange l j (j + piece.length) ≠ some taken then some false else more) =
        some (decide (piece ++ want = l.drop j)) := by
  rw [getRange_eq_some.2 ⟨rest, hs, rfl, hi⟩, Option.bind_some]
  split
  · next hne =>
    refine congrArg some (decide_eq_false fun heq => hne ?_).symm
    exact getRange_eq_some.2 ⟨want, heq.symm, rfl, hj⟩
  · next heq =>
    obtain ⟨rest', hrest', -, -⟩ := getRange_eq_some.1 (not_not.1 heq)
    have hlen := congrArg List.length hrest'
    rw [List.length_drop, List.length_append] at hlen
    rw [hmore (by omega), ← List.drop_drop, hrest', List.drop_left]
    simp only [List.append_cancel_left_eq]

theorem getElem?_of_drop {α : Type} {s rest : List α} {i : Nat} {b : α} (hs : s.drop i = b :: rest) :
    s[i]? = some b ∧ s[i + 1]? = rest.head? := by
  have h₀ := congrArg (·[0]?) hs
  have h₁ := congrArg (·[1]?) hs
  simp only [List.getElem?_drop, Nat.add_zero, List.getElem?_cons_zero,
    List.getElem?_cons_succ] at h₀ h₁
  exact ⟨h₀, h₁.trans List.head?_eq_getElem?.symm⟩

variable {slice : Str} {l : List UInt8} {turns i j : Nat}

/-- A byte that escapes nothing is compared alone. -/
theorem unescapesFrom_byte {b : UInt8} {rest : List UInt8}
    (hs : (utf8 slice).drop i = b :: rest) (hb : b ≠ 0x5C ∨ rest = []) :
    unescapesFrom slice l (turns + 1) i j = (getRange (utf8 slice) i (i + 1)).bind fun taken =>
      if getRange l j (j + 1) ≠ some taken then some false
      else unescapesFrom slice l turns (i + 1) (j + 1) := by
  obtain ⟨h₀, h₁⟩ := getElem?_of_drop hs
  have hnot : ¬(b = 0x5C ∧ (rest.head?).isSome = true) := by
    rintro ⟨rfl, hsome⟩
    rcases hb with hb | rfl
    · exact hb rfl
    · simp at hsome
  have hpipe : ¬(b = 0x5C ∧ rest.head? = some 0x7C) := fun ⟨hb, hhead⟩ =>
    hnot ⟨hb, by rw [hhead]; rfl⟩
  simp only [unescapesFrom, h₀, h₁, if_neg hpipe, if_neg hnot, Option.bind_eq_bind,
    Option.pure_def, Option.bind_some]

/-- A backslash is compared with the scalar that it escapes. -/
theorem unescapesFrom_escape {d : Char} {t : Str} (hd : d ≠ '|')
    (hs : (utf8 slice).drop i = utf8 ('\\' :: d :: t)) :
    unescapesFrom slice l (turns + 1) i j =
      (getRange (utf8 slice) i (i + (1 + d.utf8Size))).bind fun taken =>
        if getRange l j (j + (1 + d.utf8Size)) ≠ some taken then some false
        else unescapesFrom slice l turns (i + (1 + d.utf8Size)) (j + (1 + d.utf8Size)) := by
  have hslash : String.utf8EncodeChar '\\' = [0x5C] := rfl
  rw [utf8_cons, hslash, List.singleton_append] at hs
  obtain ⟨h₀, h₁⟩ := getElem?_of_drop hs
  obtain ⟨p, c, t', rfl, rfl, hc⟩ := Str.exists_of_ascii h₀ (by decide)
  rw [Str.drop_utf8, utf8_cons, hc, List.singleton_append, List.cons_inj_right, Str.utf8_inj] at hs
  subst hs
  have hafter : Str.sliceFrom (p ++ c :: d :: t) (Str.len p + 1) = some (d :: t) := by
    refine Str.sliceFrom_eq_some.2 ⟨p ++ [c], by simp, ?_⟩
    rw [Str.len_append, Str.len_cons, Str.len_nil, ← String.length_utf8EncodeChar, hc,
      List.length_singleton]
  obtain ⟨b, more, hbytes, -⟩ := utf8EncodeChar_spec d
  have hhead : (utf8 (d :: t)).head? = some b := by
    rw [utf8_cons, hbytes]
    rfl
  have hpipe : ¬(True ∧ some b = some (0x7C : UInt8)) := by
    rintro ⟨-, hb⟩
    exact hd ((Str.head_eq_iff hbytes '|' (by decide)).1 (Option.some_inj.1 hb))
  rw [hhead] at h₁
  have hsome : (some b).isSome = true := rfl
  simp only [unescapesFrom, h₀, h₁, hsome, and_self, if_true, hafter, Option.bind_eq_bind,
    Option.pure_def, Option.bind_some, List.head?_cons, Option.map_some, Option.getD_some]
  rw [if_neg hpipe]
  rfl

/-- The test from a source offset on, where `more` is left of a scalar and `t` is what follows:
    whether the rest of the literal is what is left of them. -/
theorem unescapesFrom_spec (more : List UInt8) (t : Str)
    (hs : (utf8 slice).drop i = more ++ utf8 t) (hmore : ∀ b ∈ more, 0x80 ≤ b.toNat)
    (hj : j ≤ l.length) (hturns : (more ++ utf8 t).length < turns) :
    unescapesFrom slice l turns i j =
      some (decide (more ++ utf8 (unescapePipes t) = l.drop j)) := by
  induction turns generalizing more t i j with
  | zero => exact absurd hturns (Nat.not_lt_zero _)
  | succ turns ih =>
    have hi (hne : more ++ utf8 t ≠ []) : i ≤ (utf8 slice).length := by
      by_contra hlt
      rw [List.drop_eq_nil_of_le (by omega)] at hs
      exact hne hs.symm
    cases more with
    | cons b more =>
      -- The middle of a scalar.
      have hb := List.forall_mem_cons.1 hmore
      have hne : b ≠ 0x5C := by
        rintro rfl
        exact absurd hb.1 (by decide)
      have hs' : (utf8 slice).drop (i + 1) = more ++ utf8 t := by
        rw [← List.tail_drop, hs]
        rfl
      rw [unescapesFrom_byte hs (Or.inl hne)]
      refine compare_spec [b] hs (hi (by simp)) hj fun hle => ?_
      exact ih _ _ hs' hb.2 hle (by simpa using hturns)
    | nil =>
      rw [List.nil_append] at hs hturns ⊢
      cases t with
      | nil =>
        have hend : (utf8 slice)[i]? = none := by
          rw [← Nat.add_zero i, ← List.getElem?_drop, hs]
          rfl
        simp only [unescapesFrom, hend, unescapePipes, utf8_nil]
        refine congrArg some (decide_eq_decide.2 ?_)
        rw [eq_comm (a := []), List.drop_eq_nil_iff]
        omega
      | cons c t =>
        obtain ⟨b, more, hbytes, hb⟩ := utf8EncodeChar_spec c
        have hbytes' : utf8 (c :: t) = b :: (more ++ utf8 t) := by rw [utf8_cons, hbytes]; rfl
        have hs' : (utf8 slice).drop (i + 1) = more ++ utf8 t := by
          rw [← List.tail_drop, hs, hbytes']
          rfl
        have hturns' : (more ++ utf8 t).length < turns := by
          rw [hbytes', List.length_cons] at hturns
          omega
        have hile := hi (by rw [List.nil_append, hbytes']; exact List.cons_ne_nil _ _)
        by_cases hc : c = '\\'
        · subst hc
          obtain ⟨rfl, rfl⟩ : b = 0x5C ∧ more = [] := by
            have hslash : String.utf8EncodeChar '\\' = [0x5C] := rfl
            rw [hslash, List.cons.injEq] at hbytes
            exact ⟨hbytes.1.symm, hbytes.2.symm⟩
          rw [List.nil_append] at hs' hturns' hbytes'
          cases t with
          | nil =>
            rw [unescapesFrom_byte (hs.trans hbytes') (Or.inr rfl)]
            refine compare_spec [0x5C] (hs.trans hbytes') hile hj fun hle => ?_
            exact ih [] [] hs' (by simp) hle hturns'
          | cons d t =>
            by_cases hd : d = '|'
            · -- The backslash is dropped: the pipe is compared in the next turn.
              subst hd
              obtain ⟨h₀, h₁⟩ := getElem?_of_drop (hs.trans hbytes')
              have h₁ : (utf8 slice)[i + 1]? = some 0x7C := h₁
              rw [unescapesFrom, h₀, h₁]
              exact ih [] ('|' :: t) hs' (by simp) hj hturns'
            · have hwant : utf8 (unescapePipes ('\\' :: d :: t)) =
                  utf8 ['\\', d] ++ utf8 (unescapePipes t) := by
                rw [unescapePipes.eq_3 _ _ hd, ← Str.utf8_append]
                rfl
              have hlen : (utf8 ['\\', d]).length = 1 + d.utf8Size := by
                rw [Str.length_utf8, Str.len_cons, Str.len_cons, Str.len_nil]
                rfl
              have hsplit : utf8 ('\\' :: d :: t) = utf8 ['\\', d] ++ utf8 t := by
                rw [← Str.utf8_append]
                rfl
              rw [unescapesFrom_escape hd hs, hwant, ← hlen]
              refine compare_spec _ (hs.trans hsplit) hile hj fun hle => ?_
              refine ih [] t ?_ (by simp) hle ?_
              · rw [← List.drop_drop, hs, hsplit, List.drop_left]
                rfl
              · rw [utf8_cons, List.length_append] at hturns'
                rw [List.nil_append]
                omega
        · have hne : b ≠ 0x5C := mt (Str.head_eq_iff hbytes '\\' (by decide)).1 hc
          have hmore' : ∀ b ∈ more, 0x80 ≤ b.toNat := by
            rcases hb with ⟨-, rfl, -⟩ | ⟨hhigh, -⟩
            · simp
            · exact (List.forall_mem_cons.1 hhigh).2
          have hwant : utf8 (unescapePipes (c :: t)) =
              [b] ++ (more ++ utf8 (unescapePipes t)) := by
            rw [unescapePipes.eq_4 _ _ (fun s h => (hc h).elim) fun d s h => (hc h).elim, utf8_cons,
              hbytes]
            rfl
          rw [unescapesFrom_byte (hs.trans hbytes') (Or.inl hne), hwant]
          refine compare_spec [b] (hs.trans hbytes') hile hj fun hle => ?_
          exact ih _ _ hs' hmore' hle hturns'

/-- The test is of the text without the backslashes. -/
theorem unescapesTo_eq (slice literal : Str) :
    unescapesTo slice literal = some (decide (unescapePipes slice = literal)) := by
  refine (unescapesFrom_spec [] slice rfl (by simp) (Nat.zero_le _)
    (Nat.lt_succ_self _)).trans ?_
  exact congrArg some (decide_eq_decide.2 Str.utf8_inj)

/-! ## The counts kept -/

theorem freshCount_mono (src : List UInt8) (start : Nat) {m n : Nat} (h : m ≤ n) :
    freshCount src start m ≤ freshCount src start n := by
  rw [freshCount, freshCount]
  have hsplit := List.take_append_drop (m - start) ((src.drop start).take (n - start))
  rw [List.take_take, Nat.min_eq_left (Nat.sub_le_sub_right h start)] at hsplit
  rw [← hsplit, escapedPipes_append]
  exact Nat.le_add_right _ _

theorem freshCount_le (src : List UInt8) (start n : Nat) : freshCount src start n ≤ src.length := by
  refine (escapedPipes_le_length _ _).trans ?_
  rw [List.length_take, List.length_drop]
  omega

namespace PipeCounts

/-- What the counts hold: those of the bytes from the origin on, as far as they reach. -/
structure Holds (src : List UInt8) (pc : PipeCounts) : Prop where
  within : pc.counts ≠ [] → pc.origin + pc.counts.length ≤ src.length + 1
  counts : ∀ (k : Nat) (n : UInt32), pc.counts[k]? = some n →
    n.toNat = escapedPipes false ((src.drop pc.origin).take k)
  last : pc.counts ≠ [] →
    pc.lastWasBackslash = escapes false ((src.drop pc.origin).take (pc.counts.length - 1))

variable {src : List UInt8} {pc : PipeCounts}

theorem holds_empty (src : List UInt8) : Holds src empty :=
  ⟨fun h => absurd rfl h, (fun k n h => by cases h), fun h => absurd rfl h⟩

theorem holds_start {origin : Nat} (h : origin ≤ src.length) : Holds src ⟨origin, false, [0]⟩ := by
  refine ⟨fun _ => Nat.add_le_add_right h 1, fun k n hn => ?_, fun _ => rfl⟩
  obtain ⟨hk, rfl⟩ := List.getElem?_eq_some_iff.1 hn
  obtain rfl : k = 0 := by
    rw [List.length_singleton] at hk
    omega
  rfl

/-- Counting one more byte. -/
theorem Holds.count (h : pc.Holds src) (hne : pc.counts ≠ []) (hlen : src.length < 2 ^ 32)
    (hmore : pc.origin + pc.counts.length ≤ src.length) :
    ∃ b, src[pc.origin + pc.counts.length - 1]? = some b ∧ (pc.count b).Holds src ∧
      (pc.count b).origin = pc.origin ∧
        (pc.count b).counts.length = pc.counts.length + 1 := by
  have hpos := List.length_pos_of_ne_nil hne
  have hlt : pc.origin + pc.counts.length - 1 < src.length := by omega
  refine ⟨src[pc.origin + pc.counts.length - 1], List.getElem?_eq_getElem hlt, ?_⟩
  generalize hb : src[pc.origin + pc.counts.length - 1] = b
  -- The bytes counted so far, and one more.
  have htake : (src.drop pc.origin).take pc.counts.length =
      (src.drop pc.origin).take (pc.counts.length - 1) ++ [b] := by
    obtain ⟨m, hm⟩ := Nat.exists_eq_succ_of_ne_zero hpos.ne'
    have hget : (src.drop pc.origin)[m]? = some b := by
      rw [List.getElem?_drop, ← hb, List.getElem?_eq_getElem (by omega)]
      simp only [hm, Nat.add_succ, Nat.succ_sub_one]
    rw [hm, Nat.succ_sub_one, List.take_add_one, hget]
    rfl
  have hlast : (pc.counts.getLastD 0).toNat =
      escapedPipes false ((src.drop pc.origin).take (pc.counts.length - 1)) := by
    refine h.counts _ _ ?_
    rw [List.getLastD_eq_getLast?, List.getLast?_eq_getElem?,
      List.getElem?_eq_getElem (by omega), Option.getD_some]
  have hle : (pc.counts.getLastD 0).toNat ≤ pc.counts.length - 1 :=
    hlast ▸ (escapedPipes_le_length _ _).trans (List.length_take_le _ _)
  have hstate := h.last hne
  -- The new count, and whether the next byte is escaped.
  obtain ⟨n, hcount, hn⟩ : ∃ n : UInt32,
      pc.count b = ⟨pc.origin, escapes false ((src.drop pc.origin).take pc.counts.length),
        pc.counts ++ [n]⟩ ∧
      n.toNat = escapedPipes false ((src.drop pc.origin).take pc.counts.length) := by
    rw [PipeCounts.count, htake, escapes_append, escapedPipes_append, ← hstate, ← hlast]
    cases pc.lastWasBackslash with
    | true =>
      refine ⟨_, rfl, ?_⟩
      by_cases hpipe : b = 0x7C
      · rw [if_pos hpipe, UInt32.toNat_add, UInt32.toNat_one, Nat.mod_eq_of_lt (by omega)]
        simp [escapedPipes, hpipe]
      · rw [if_neg hpipe]
        simp [escapedPipes, hpipe]
    | false => exact ⟨_, rfl, by simp [escapedPipes]⟩
  rw [hcount]
  refine ⟨⟨fun _ => ?_, fun k m hm => ?_, fun _ => ?_⟩, rfl, by simp⟩
  · simp only [List.length_append, List.length_singleton]
    omega
  · rw [List.getElem?_append] at hm
    split at hm
    · exact h.counts k m hm
    · next hk =>
      obtain ⟨hlt, rfl⟩ := List.getElem?_eq_some_iff.1 hm
      obtain rfl : k = pc.counts.length := by
        rw [List.length_singleton] at hlt
        omega
      simpa using hn
  · simp

theorem Holds.extend (turns : Nat) (h : pc.Holds src) (hne : pc.counts ≠ [])
    (hlen : src.length < 2 ^ 32) (hmore : pc.origin + pc.counts.length + turns ≤ src.length + 1) :
    ∃ pc', extend src turns pc = some pc' ∧ pc'.Holds src ∧ pc'.origin = pc.origin ∧
      pc'.counts.length = pc.counts.length + turns := by
  induction turns generalizing pc with
  | zero => exact ⟨pc, rfl, h, rfl, rfl⟩
  | succ turns ih =>
    obtain ⟨b, hb, h', horigin, hlength⟩ := h.count hne hlen (by omega)
    have hne' : (pc.count b).counts ≠ [] := by
      rw [← List.length_pos_iff]
      omega
    obtain ⟨pc', hpc', hholds, horigin', hlength'⟩ := ih h' hne' (by omega)
    refine ⟨pc', ?_, hholds, horigin'.trans horigin, by omega⟩
    rw [PipeCounts.extend, hb]
    exact hpc'

/-- A query is answered as a fresh count, if nothing is escaped where its range starts. -/
theorem Holds.removed {origin start : Nat} (h : pc.Holds src) (hlen : src.length < 2 ^ 32)
    (horigin : origin ≤ start) (hstart : start ≤ src.length)
    (hreset : escapes false ((src.drop origin).take (start - origin)) = false) (upto : Nat) :
    ∃ pc', pc.removed src origin start upto = some (freshCount src start upto, pc') ∧
      pc'.Holds src := by
  -- The counts that are extended: those of the leaf, or none yet.
  obtain ⟨base, hbase, hholds, hne, hsame⟩ : ∃ base,
      (if pc.origin ≠ origin ∨ pc.counts = [] then ⟨origin, false, [0]⟩ else pc) = base ∧
        base.Holds src ∧ base.counts ≠ [] ∧ base.origin = origin := by
    split
    · exact ⟨_, rfl, holds_start (horigin.trans hstart), List.cons_ne_nil _ _, rfl⟩
    · next hkept =>
      obtain ⟨hsame, hne⟩ := not_or.1 hkept
      exact ⟨_, rfl, h, hne, not_not.1 hsame⟩
  subst hsame
  generalize hlast : max (min upto src.length) start = last
  obtain ⟨pc', hpc', hholds', horigin', hlength⟩ := hholds.extend
    (last + 1 - (base.origin + base.counts.length)) hne hlen (by
      have := hholds.within hne
      omega)
  have hget (k : Nat) (hk : k ≤ last) : ∃ n : UInt32, pc'.counts[k - base.origin]? = some n ∧
      n.toNat = escapedPipes false ((src.drop base.origin).take (k - base.origin)) := by
    have hlt : k - base.origin < pc'.counts.length := by
      have := List.length_pos_of_ne_nil hne
      omega
    have hcount := hholds'.counts _ _ (List.getElem?_eq_getElem hlt)
    rw [horigin'] at hcount
    exact ⟨_, List.getElem?_eq_getElem hlt, hcount⟩
  obtain ⟨m, hm, hmcount⟩ := hget last le_rfl
  obtain ⟨n, hn, hncount⟩ := hget start (by omega)
  -- The count of the leaf up to the end is that up to the start and that of the range.
  have hsplit : m.toNat = n.toNat + freshCount src start upto := by
    have htake : (src.drop base.origin).take (last - base.origin) =
        (src.drop base.origin).take (start - base.origin) ++
          (src.drop start).take (upto - start) := by
      have hclamp : (src.drop start).take (upto - start) = (src.drop start).take (last - start) := by
        rw [List.take_eq_take_iff, List.length_drop]
        omega
      rw [hclamp, show last - base.origin = start - base.origin + (last - start) by omega,
        List.take_add, List.drop_drop, Nat.add_sub_cancel' horigin]
    rw [hmcount, htake, escapedPipes_append, hreset, ← hncount, freshCount]
  refine ⟨pc', ?_, hholds'⟩
  have hsub : n ≤ m := UInt32.le_iff_toNat_le.2 (by omega)
  simp only [PipeCounts.removed, hbase, hlast, hpc', hm, hn, Option.bind_eq_bind,
    Option.bind_some, if_neg (not_lt.2 horigin), Option.pure_def, UInt32.toNat_sub_of_le _ _ hsub]
  rw [hsplit, Nat.add_sub_cancel_left]

/-- A query that the leaf makes: from its start, or from the start of a line after it. -/
structure Query.Valid (src : List UInt8) (q : Query) : Prop where
  origin : q.origin ≤ src.length
  start : q.start = q.origin ∨
    q.origin < q.start ∧ q.start ∈ (LineIndex.new src).lineStarts

/-- The counts after some queries. -/
inductive Reached (src : List UInt8) : PipeCounts → Prop
  | empty : Reached src empty
  | query {pc pc' : PipeCounts} {q : Query} {n : Nat} (hpc : Reached src pc) (hq : q.Valid src)
      (h : pc.removed src q.origin q.start q.upto = some (n, pc')) : Reached src pc'

/-- Where a valid range starts nothing is escaped: before it there is a line ending. -/
theorem Query.Valid.reset {cs : Str} {q : Query} (h : q.Valid (utf8 cs))
    (hlen : (utf8 cs).length < 2 ^ 32) :
    q.origin ≤ q.start ∧ q.start ≤ (utf8 cs).length ∧
      escapes false (((utf8 cs).drop q.origin).take (q.start - q.origin)) = false := by
  rcases h.start with heq | ⟨hlt, hmem⟩
  · refine ⟨heq.ge, heq ▸ h.origin, ?_⟩
    rw [heq, Nat.sub_self, List.take_zero]
    rfl
  · rcases (LineIndex.splitsLines_new hlen).behindBreak hmem with hzero |
      ⟨before, b, rest, hsplit, hstart, hb⟩
    · omega
    rw [Nat.zero_add] at hstart
    have hpiece : ((utf8 cs).drop q.origin).take (q.start - q.origin) =
        before.drop q.origin ++ [b] := by
      rw [hsplit, ← List.drop_take, hstart, List.append_cons, List.take_left' (by simp),
        List.drop_append_of_le_length (by omega)]
    refine ⟨hlt.le, ?_, escapes_eq_false (b := b) ?_ ?_⟩
    · rw [hsplit, List.length_append, List.length_cons]
      omega
    · rw [hpiece, List.getLast?_concat]
    · rcases hb with rfl | rfl <;> decide

theorem Reached.holds {cs : Str} {pc : PipeCounts} (h : Reached (utf8 cs) pc)
    (hlen : (utf8 cs).length < 2 ^ 32) : pc.Holds (utf8 cs) := by
  induction h with
  | empty => exact holds_empty _
  | @query pc pc' q n hpc hq hremoved ih =>
    obtain ⟨horigin, hstart, hreset⟩ := hq.reset hlen
    obtain ⟨pc'', hpc'', hholds⟩ := ih.removed hlen horigin hstart hreset q.upto
    obtain ⟨-, rfl⟩ := Prod.mk.inj (Option.some_inj.1 (hpc''.symm.trans hremoved))
    exact hholds

/-- A valid query is answered as a fresh count of its range. -/
theorem Reached.removed {cs : Str} {pc : PipeCounts} {q : Query} (h : Reached (utf8 cs) pc)
    (hlen : (utf8 cs).length < 2 ^ 32) (hq : q.Valid (utf8 cs)) :
    ∃ pc', pc.removed (utf8 cs) q.origin q.start q.upto =
        some (freshCount (utf8 cs) q.start q.upto, pc') ∧ Reached (utf8 cs) pc' := by
  obtain ⟨horigin, hstart, hreset⟩ := hq.reset hlen
  obtain ⟨pc', hpc', -⟩ := (h.holds hlen).removed hlen horigin hstart hreset q.upto
  exact ⟨pc', hpc', h.query hq hpc'⟩

theorem Reached.answers_eq {cs : Str} {pc : PipeCounts} {queries : List Query}
    (h : Reached (utf8 cs) pc) (hlen : (utf8 cs).length < 2 ^ 32)
    (hqueries : ∀ q ∈ queries, q.Valid (utf8 cs)) :
    answers (utf8 cs) pc queries =
      some (queries.map fun q => freshCount (utf8 cs) q.start q.upto) := by
  induction queries generalizing pc with
  | nil => rfl
  | cons q queries ih =>
    obtain ⟨pc', hpc', h'⟩ := h.removed hlen (hqueries q List.mem_cons_self)
    have hrest := ih h' fun q' hq' => hqueries q' (List.mem_cons_of_mem _ hq')
    simp only [answers, hpc', hrest, Option.bind_eq_bind, Option.bind_some, Option.pure_def,
      List.map_cons]

end PipeCounts

/-! ## The fixed point -/

/-- The loop ends in the least offset that is the byte and the escaped pipes through it. -/
theorem shiftLoop_spec {cs : Str} {origin start byte turns b k₀ : Nat} {pc : PipeCounts}
    (hlen : (utf8 cs).length < 2 ^ 32)
    (hvalid : ∀ upto, PipeCounts.Query.Valid (utf8 cs) ⟨origin, start, upto⟩)
    (hpc : PipeCounts.Reached (utf8 cs) pc) (hb : b = byte + k₀)
    (hk : k₀ ≤ freshCount (utf8 cs) start (b + 1))
    (hleast : ∀ b', b' = byte + freshCount (utf8 cs) start (b' + 1) → b ≤ b')
    (hturns : (utf8 cs).length < turns + k₀) :
    ∃ b' pc', shiftLoop (utf8 cs) origin start byte turns pc b k₀ = some (b', pc') ∧
      PipeCounts.Reached (utf8 cs) pc' ∧ b' = byte + freshCount (utf8 cs) start (b' + 1) ∧
        ∀ b'', b'' = byte + freshCount (utf8 cs) start (b'' + 1) → b' ≤ b'' := by
  induction turns generalizing pc b k₀ with
  | zero =>
    have := freshCount_le (utf8 cs) start (b + 1)
    omega
  | succ turns ih =>
    obtain ⟨pc', hpc', hreached⟩ := hpc.removed hlen (hvalid (b + 1))
    simp only [shiftLoop, hpc', Option.bind_eq_bind, Option.bind_some, Option.pure_def]
    split
    · next heq => exact ⟨b, pc', rfl, hreached, by rw [heq, hb], hleast⟩
    · next hne =>
      have hlt := lt_of_le_of_ne hk (Ne.symm hne)
      refine ih hreached rfl (freshCount_mono _ _ (by omega)) (fun b' hb' => ?_) (by omega)
      rw [hb']
      exact Nat.add_le_add_left (freshCount_mono _ _ (by have := hleast b' hb'; omega)) _

/-- The shift ends, whatever was counted before, in the least offset that is the byte and the
    escaped pipes through it. -/
theorem pipeShift_spec {cs : Str} {pc : PipeCounts} {cellStart : Nat}
    (hlen : (utf8 cs).length < 2 ^ 32) (hpc : PipeCounts.Reached (utf8 cs) pc)
    (hcell : cellStart ≤ (utf8 cs).length) (byte : Nat) :
    ∃ b pc', pipeShift (utf8 cs) (.new (utf8 cs)) pc byte (some cellStart) = some (b, pc') ∧
      PipeCounts.Reached (utf8 cs) pc' ∧
      b = byte + freshCount (utf8 cs) (countedFrom (utf8 cs) (.new (utf8 cs)) byte cellStart)
        (b + 1) ∧
      ∀ b', b' = byte + freshCount (utf8 cs)
        (countedFrom (utf8 cs) (.new (utf8 cs)) byte cellStart) (b' + 1) → b ≤ b' := by
  have hvalid : ∀ upto, PipeCounts.Query.Valid (utf8 cs)
      ⟨cellStart, countedFrom (utf8 cs) (.new (utf8 cs)) byte cellStart, upto⟩ := fun upto => by
    refine ⟨hcell, ?_⟩
    rw [countedFrom]
    rcases le_or_gt ((LineIndex.new (utf8 cs)).lineStart
      ((LineIndex.new (utf8 cs)).lineOf (min byte (utf8 cs).length))) cellStart with hle | hlt
    · exact Or.inl (max_eq_left hle)
    · refine Or.inr ⟨hlt.trans_le (le_max_right _ _), ?_⟩
      dsimp only
      rw [max_eq_right hlt.le, LineIndex.lineStart]
      have hne : 0 < (LineIndex.new (utf8 cs)).lineStarts.length := by
        have := (LineIndex.splitsLines_new hlen).pairwise.1
        exact List.length_pos_of_ne_nil fun hnil => by rw [hnil] at this; cases this
      rw [List.getD_eq_getElem _ _ (by omega)]
      exact List.getElem_mem _
  exact shiftLoop_spec hlen hvalid hpc rfl (Nat.zero_le _) (fun b' hb' => by omega) (by omega)

/-- Two pipes next to each other are not both escaped. -/
theorem escapedPipes_lt (last : Bool) {l : List UInt8} (h : 2 ≤ l.length) :
    escapedPipes last l < l.length := by
  match l, h with
  | x :: y :: l, _ =>
    have := escapedPipes_le_length (!(!last && decide (x = 0x5C)) && decide (y = 0x5C)) l
    rw [escapedPipes, escapedPipes, List.length_cons, List.length_cons]
    by_cases hx : x = 0x7C
    · subst hx
      have hy : ¬((!last && decide ((0x7C : UInt8) = 0x5C)) = true ∧ y = 0x7C) := by
        rw [decide_eq_false (by decide), Bool.and_false]
        exact fun h => Bool.false_ne_true h.1
      rw [if_neg hy]
      split <;> omega
    · rw [if_neg fun h => hx h.2]
      split <;> omega

/-- The shift of the offset of a scalar in the text without the backslashes is its offset in the
    source, or that of its backslash. -/
theorem shift_undoes {p u v w : Str} {c : Char} {b : Nat}
    (hw : unescapePipes (u ++ [c]) = w ++ [c])
    (hb : b = Str.len p + Str.len w +
      freshCount (utf8 (p ++ (u ++ c :: v))) (Str.len p) (b + 1))
    (hleast : ∀ b', b' = Str.len p + Str.len w +
      freshCount (utf8 (p ++ (u ++ c :: v))) (Str.len p) (b' + 1) → b ≤ b') :
    b + (if c = '|' ∧ escapes false (utf8 u) = true then 1 else 0) = Str.len p + Str.len u := by
  generalize hδ : (if c = '|' ∧ escapes false (utf8 u) = true then 1 else 0) = δ
  obtain ⟨x, more, hbytes, hx⟩ := utf8EncodeChar_spec c
  -- The bytes of the text from its start on, up to the scalar and its first byte.
  have hdrop : (utf8 (p ++ (u ++ c :: v))).drop (Str.len p) =
      utf8 u ++ x :: (more ++ utf8 v) := by
    rw [Str.drop_utf8, Str.utf8_append, utf8_cons, hbytes]
    rfl
  have hpipe : x = 0x7C ↔ c = '|' := Str.head_eq_iff hbytes '|' (by decide)
  have hcount : ∀ k, freshCount (utf8 (p ++ (u ++ c :: v))) (Str.len p) (Str.len p + k) =
      escapedPipes false ((utf8 u ++ x :: (more ++ utf8 v)).take k) := fun k => by
    rw [freshCount, hdrop, Nat.add_sub_cancel_left]
  have hbefore : freshCount (utf8 (p ++ (u ++ c :: v))) (Str.len p) (Str.len p + Str.len u) =
      escapedPipes false (utf8 u) := by
    rw [hcount, ← Str.length_utf8, List.take_left]
  have hat : freshCount (utf8 (p ++ (u ++ c :: v))) (Str.len p) (Str.len p + Str.len u + 1) =
      escapedPipes false (utf8 u) + δ := by
    rw [Nat.add_assoc, hcount, ← Str.length_utf8, List.append_cons,
      List.take_left' (by simp), escapedPipes_append, escapedPipes, escapedPipes, ← hδ,
      Nat.add_zero]
    simp only [hpipe, and_comm]
  -- What is removed before the scalar is what its offset is less by.
  have hlen : Str.len w + (escapedPipes false (utf8 u) + δ) = Str.len u := by
    have hsize := len_unescapePipes (u ++ [c])
    have hscalar := (escapedPipes_scalar (escapes false (utf8 u)) c []).1
    rw [hw, Str.utf8_append, escapedPipes_append, utf8_cons, utf8_nil, hscalar] at hsize
    simp only [escapedPipes, Nat.add_zero, Str.len_append, Str.len_cons, Str.len_nil,
      and_comm (b := c = '|'), hδ] at hsize
    omega
  have hle : b ≤ Str.len p + Str.len u := hleast _ (by rw [hat]; omega)
  -- Every byte between is an escaped pipe, so that there is one at most.
  have hgap : Str.len p + Str.len u < b + 2 := by
    by_contra hlt
    obtain ⟨k, rfl⟩ : ∃ k, b = Str.len p + k := ⟨b - Str.len p, by omega⟩
    have hsplit := congrArg (escapedPipes false) (List.take_add
      (l := utf8 u ++ x :: (more ++ utf8 v)) (i := k + 1) (j := Str.len u - k))
    rw [show k + 1 + (Str.len u - k) = Str.len u + 1 by omega, ← hcount,
      show Str.len p + (Str.len u + 1) = Str.len p + Str.len u + 1 by omega, hat,
      escapedPipes_append, ← hcount,
      show Str.len p + (k + 1) = Str.len p + k + 1 by omega] at hsplit
    have hlength : (((utf8 u ++ x :: (more ++ utf8 v)).drop (k + 1)).take
        (Str.len u - k)).length = Str.len u - k := by
      rw [List.length_take, List.length_drop, List.length_append, List.length_cons,
        Str.length_utf8]
      omega
    have hfew := escapedPipes_lt (escapes false
      ((utf8 u ++ x :: (more ++ utf8 v)).take (k + 1)))
      (l := ((utf8 u ++ x :: (more ++ utf8 v)).drop (k + 1)).take (Str.len u - k)) (by omega)
    omega
  rcases Nat.eq_zero_or_pos δ with rfl | hδpos
  · by_contra hne
    have hb' : b + 1 = Str.len p + Str.len u := by omega
    rw [hb', hbefore] at hb
    omega
  · have hδ1 : δ ≤ 1 := by
      rw [← hδ]
      split <;> omega
    have hless := hleast (Str.len p + Str.len u - 1) (by
      rw [Nat.sub_add_cancel (by omega), hbefore]
      omega)
    omega

/-- The positions of escaped pipes are inverted exactly, after any queries of the counts: further
    ones are answered as fresh counts of their ranges are, and the shift of a byte ends in the
    least offset from which the escaped pipes through it, counted from the leaf's or the line's
    start, lead back to the byte. So the offset of a scalar in the text without the backslashes is
    shifted to its offset in the source, or to that of its backslash; and the test of that text is
    exact. -/
theorem pipes_inverted {cs : Str} (hlen : (utf8 cs).length < 2 ^ 32) {pc : PipeCounts}
    (hpc : PipeCounts.Reached (utf8 cs) pc) :
    (∀ queries : List PipeCounts.Query, (∀ q ∈ queries, q.Valid (utf8 cs)) →
      PipeCounts.answers (utf8 cs) pc queries =
        some (queries.map fun q => freshCount (utf8 cs) q.start q.upto)) ∧
    (∀ cellStart byte, cellStart ≤ (utf8 cs).length →
      ∃ start b pc', start = countedFrom (utf8 cs) (.new (utf8 cs)) byte cellStart ∧
        pipeShift (utf8 cs) (.new (utf8 cs)) pc byte (some cellStart) = some (b, pc') ∧
        PipeCounts.Reached (utf8 cs) pc' ∧
        (byte ≤ b ∧ b = byte + freshCount (utf8 cs) start (b + 1)) ∧
        (∀ b', byte ≤ b' → b' = byte + freshCount (utf8 cs) start (b' + 1) → b ≤ b') ∧
        ∀ p u c v w w', cs = p ++ (u ++ c :: v) → Str.len p = start →
          unescapePipes (u ++ [c]) = w ++ [c] → unescapePipes (u ++ c :: v) = w ++ c :: w' →
          byte = start + Str.len w →
          b + (if c = '|' ∧ escapes false (utf8 u) = true then 1 else 0) = start + Str.len u) ∧
    ∀ slice literal, unescapesTo slice literal = some (decide (unescapePipes slice = literal)) := by
  refine ⟨fun queries hqueries => hpc.answers_eq hlen hqueries, fun cellStart byte hcell => ?_,
    unescapesTo_eq⟩
  obtain ⟨b, pc', hshift, hpc', hb, hleast⟩ := pipeShift_spec hlen hpc hcell byte
  generalize hstart : countedFrom (utf8 cs) (.new (utf8 cs)) byte cellStart = start at hb hleast
  refine ⟨start, b, pc', rfl, hshift, hpc', ⟨by omega, hb⟩, fun b' _ hb' => hleast b' hb', ?_⟩
  rintro p u c v w w' rfl rfl hw - rfl
  exact shift_undoes hw hb hleast

/-- A cell with an escaped pipe before a letter, asked for a range and then for a part of it. -/
theorem pipes_inverted_cell :
    PipeCounts.answers (utf8 "a\\|b".toList) .empty [⟨0, 0, 4⟩, ⟨0, 0, 2⟩] = some [1, 0] ∧
      unescapesTo "a\\|b".toList "a|b".toList = some true := by
  have hlen : (utf8 "a\\|b".toList).length < 2 ^ 32 := by decide
  obtain ⟨hanswers, -, htest⟩ := pipes_inverted hlen .empty
  refine ⟨(hanswers [⟨0, 0, 4⟩, ⟨0, 0, 2⟩] ?_).trans (by decide), (htest _ _).trans (by decide)⟩
  simp only [List.mem_cons, List.not_mem_nil, or_false, forall_eq_or_imp, forall_eq]
  exact ⟨⟨Nat.zero_le _, Or.inl rfl⟩, ⟨Nat.zero_le _, Or.inl rfl⟩⟩

example : unescapePipes "a\\|b\\\\|\\".toList = "a|b\\\\|\\".toList := by decide

example : (pipeShift (utf8 "a\\|\\|b".toList) (LineIndex.new (utf8 "a\\|\\|b".toList)) .empty 3
    (some 0)).map Prod.fst = some 5 := by decide

end Flark.Native
