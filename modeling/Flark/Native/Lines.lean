import Flark.Kernel.Admission
import Flark.Lib.Bisect
import Flark.Native.Records
import Flark.Parse.Lines

/-!
# The line table

The line table and the table of UTF-16 units that the native side computes from the UTF-8 form of
a source (`lines.rs`), beside the counts that the kernel takes of its UTF-16 form.

* `LineIndex.new`: the tables, in one pass over the bytes;
* `SplitsLines`: starts and ends that split bytes at their line endings;
* `same_lines`: the two sides agree on what a source is, its sizes and its lines.
-/

namespace Flark.Native

/-! ## The two forms of a text -/

/-- The UTF-8 form of scalars. -/
def utf8 (cs : List Char) : List UInt8 := cs.flatMap String.utf8EncodeChar

/-- The UTF-16 form of scalars. -/
def units (cs : List Char) : Text := cs.flatMap unitsOf

@[simp] theorem utf8_nil : utf8 [] = [] := rfl

@[simp] theorem utf8_cons (c : Char) (cs : List Char) :
    utf8 (c :: cs) = String.utf8EncodeChar c ++ utf8 cs := List.flatMap_cons

@[simp] theorem units_nil : units [] = [] := rfl

@[simp] theorem units_cons (c : Char) (cs : List Char) : units (c :: cs) = unitsOf c ++ units cs :=
  List.flatMap_cons

/-- Bytes that are decoded are the one form of what they are decoded to, which is the other. -/
theorem utf16OfUtf8_eq_some {bytes : List UInt8} {t : Text} :
    utf16OfUtf8 bytes = some t ↔ ∃ cs, utf8 cs = bytes ∧ units cs = t := by
  have hform : ∀ l : List UInt8, ByteArray.mk l.toArray = l.toByteArray := fun l => by
    ext1
    exact List.data_toByteArray.symm
  rw [utf16OfUtf8, hform]
  constructor
  · intro h
    obtain ⟨chars, hchars, rfl⟩ := Option.map_eq_some_iff.1 h
    refine ⟨chars.toList, ?_, rfl⟩
    have hencode := ByteArray.utf8Encode_get_utf8Decode? (b := bytes.toByteArray)
      (h := Option.isSome_of_mem hchars)
    rw [Option.get_of_mem _ hchars, List.utf8Encode, List.toByteArray_inj] at hencode
    exact hencode
  · rintro ⟨cs, rfl, rfl⟩
    have hdecode := List.utf8Decode?_utf8Encode (l := cs)
    rw [List.utf8Encode] at hdecode
    rw [utf8, hdecode]
    rfl

/-- The bytes of a scalar: one that is ASCII, or more that are not, of which the first says how
    many. -/
theorem utf8EncodeChar_spec (c : Char) : ∃ b rest, String.utf8EncodeChar c = b :: rest ∧
    (c.toNat ≤ 0x7F ∧ rest = [] ∧ b.toNat = c.toNat ∨
      (∀ b' ∈ b :: rest, 0x80 ≤ b'.toNat) ∧
        (rest.length = 1 ∧ 0x7F < c.toNat ∧ c.toNat ≤ 0x7FF ∧ b.toNat < 0xE0 ∨
          rest.length = 2 ∧ 0x7FF < c.toNat ∧ c.toNat ≤ 0xFFFF ∧ 0xE0 ≤ b.toNat ∧ b.toNat < 0xF0 ∨
          rest.length = 3 ∧ 0xFFFF < c.toNat ∧ 0xF0 ≤ b.toNat)) := by
  have hval : c.val.toNat = c.toNat := rfl
  have hbyte : ∀ n, n < 256 → (UInt8.ofNat n).toNat = n := fun n hn => UInt8.toNat_ofNat_of_lt hn
  rw [String.utf8EncodeChar, hval]
  split_ifs with h₁ h₂ h₃
  · exact ⟨_, _, rfl, Or.inl ⟨h₁, rfl, hbyte _ (by omega)⟩⟩
  · refine ⟨_, _, rfl, Or.inr ⟨?_, Or.inl ⟨rfl, not_le.1 h₁, h₂, ?_⟩⟩⟩
    · simp only [List.forall_mem_cons, List.not_mem_nil, false_imp_iff, implies_true, and_true]
      rw [hbyte _ (by omega), hbyte _ (by omega)]
      omega
    · rw [hbyte _ (by omega)]
      omega
  · refine ⟨_, _, rfl, Or.inr ⟨?_, Or.inr (Or.inl ⟨rfl, not_le.1 h₂, h₃, ?_⟩)⟩⟩
    · simp only [List.forall_mem_cons, List.not_mem_nil, false_imp_iff, implies_true, and_true]
      rw [hbyte _ (by omega), hbyte _ (by omega), hbyte _ (by omega)]
      omega
    · rw [hbyte _ (by omega)]
      omega
  · refine ⟨_, _, rfl, Or.inr ⟨?_, Or.inr (Or.inr ⟨rfl, not_le.1 h₃, ?_⟩)⟩⟩
    · simp only [List.forall_mem_cons, List.not_mem_nil, false_imp_iff, implies_true, and_true]
      rw [hbyte _ (by omega), hbyte _ (by omega), hbyte _ (by omega), hbyte _ (by omega)]
      omega
    · rw [hbyte _ (by omega)]
      omega

theorem length_unitsOf (c : Char) : (unitsOf c).length = if c.toNat < 0x10000 then 1 else 2 := by
  rw [unitsOf]
  split <;> rfl

/-- A text has no more code units than bytes. -/
theorem length_units_le (cs : List Char) : (units cs).length ≤ (utf8 cs).length := by
  induction cs with
  | nil => exact le_rfl
  | cons c cs ih =>
    obtain ⟨b, rest, hbytes, h⟩ := utf8EncodeChar_spec c
    rw [units_cons, utf8_cons, List.length_append, List.length_append, length_unitsOf, hbytes,
      List.length_cons]
    split_ifs <;> omega

theorem utf8EncodeChar_return : String.utf8EncodeChar '\r' = [0x0D] := rfl

theorem utf8EncodeChar_feed : String.utf8EncodeChar '\n' = [0x0A] := rfl

theorem unitsOf_return : unitsOf '\r' = [0x0D] := rfl

theorem unitsOf_feed : unitsOf '\n' = [0x0A] := rfl

/-- The units of a scalar: one that is it, or two that are surrogates. -/
theorem unitsOf_spec (c : Char) :
    (c.toNat < 0x10000 ∧ unitsOf c = [.ofNat c.toNat] ∧ (UInt16.ofNat c.toNat).toNat = c.toNat) ∨
      ∃ u v, unitsOf c = [u, v] ∧ isHighSurrogate u = true ∧ isLowSurrogate v = true := by
  have hvalid : c.toNat < 0x110000 := by
    rcases c.valid with h | h
    · exact h.trans (by decide)
    · exact h.2
  have hunit : ∀ n, n < 2 ^ 16 → (UInt16.ofNat n).toNat = n := fun n hn =>
    UInt16.toNat_ofNat_of_lt' hn
  rw [unitsOf]
  split_ifs with hlt
  · exact Or.inl ⟨hlt, rfl, hunit _ hlt⟩
  · refine Or.inr ⟨_, _, rfl, ?_, ?_⟩
    · rw [isHighSurrogate, Bool.and_eq_true, decide_eq_true_eq, decide_eq_true_eq,
        UInt16.le_iff_toNat_le, UInt16.le_iff_toNat_le, Nat.toUInt16_eq, hunit _ (by omega)]
      simp only [UInt16.reduceToNat]
      omega
    · rw [isLowSurrogate, Bool.and_eq_true, decide_eq_true_eq, decide_eq_true_eq,
        UInt16.le_iff_toNat_le, UInt16.le_iff_toNat_le, Nat.toUInt16_eq, hunit _ (by omega)]
      simp only [UInt16.reduceToNat]
      omega

/-- A unit that is a scalar of its own is a line feed, or a carriage return, where that is. -/
theorem ofNat_eq_feed_iff {c : Char} (h : (UInt16.ofNat c.toNat).toNat = c.toNat) :
    UInt16.ofNat c.toNat = 0x0A ↔ c = '\n' := by
  rw [← UInt16.toNat_inj, h, ← Char.toNat_inj]
  rfl

/-- A character of one code unit is CR where its unit is. -/
theorem ofNat_eq_return_iff {c : Char} (h : (UInt16.ofNat c.toNat).toNat = c.toNat) :
    UInt16.ofNat c.toNat = 0x0D ↔ c = '\r' := by
  rw [← UInt16.toNat_inj, h, ← Char.toNat_inj]
  rfl

/-- A surrogate is no line break. -/
theorem not_break_of_isSurrogate {u : UInt16}
    (h : isHighSurrogate u = true ∨ isLowSurrogate u = true) : u ≠ 0x0A ∧ u ≠ 0x0D := by
  obtain ⟨hfeed, hascii, -⟩ := SourceStats.lt_of_isSurrogate h
  refine ⟨hfeed, ?_⟩
  rintro rfl
  exact hascii (by decide)

/-- No unit of another scalar ends a line. -/
theorem not_break_of_mem_unitsOf {c : Char} (hfeed : c ≠ '\n') (hreturn : c ≠ '\r') :
    ∀ u ∈ unitsOf c, u ≠ 0x0A ∧ u ≠ 0x0D := by
  rcases unitsOf_spec c with ⟨-, hunits, hunit⟩ | ⟨u, v, hunits, hhigh, hlow⟩
  · rw [hunits]
    refine List.forall_mem_singleton.2 ⟨?_, ?_⟩
    · exact mt (ofNat_eq_feed_iff hunit).1 hfeed
    · exact mt (ofNat_eq_return_iff hunit).1 hreturn
  · rw [hunits]
    exact List.forall_mem_cons.2 ⟨not_break_of_isSurrogate (Or.inl hhigh),
      List.forall_mem_singleton.2 (not_break_of_isSurrogate (Or.inr hlow))⟩

/-- A text begins with LF where its code units do. -/
theorem head?_units (cs : List Char) : (units cs).head? = some 0x0A ↔ cs.head? = some '\n' := by
  cases cs with
  | nil => exact iff_of_false (by simp) (by simp)
  | cons c cs =>
    rw [units_cons, List.head?_cons, Option.some_inj]
    rcases unitsOf_spec c with ⟨-, hunits, hunit⟩ | ⟨u, v, hunits, hhigh, -⟩
    · rw [hunits, List.singleton_append, List.head?_cons, Option.some_inj]
      exact ofNat_eq_feed_iff hunit
    · rw [hunits, List.cons_append, List.head?_cons, Option.some_inj]
      refine iff_of_false (not_break_of_isSurrogate (Or.inl hhigh)).1 ?_
      rintro rfl
      exact absurd (congrArg List.length hunits) (by rw [unitsOf_feed]; simp)

theorem endsLine_feed (next : Option UInt16) : EndsLine 0x0A next := Or.inl rfl

theorem endsLine_return {next : Option UInt16} : EndsLine 0x0D next ↔ next ≠ some 0x0A :=
  ⟨fun h => h.elim (fun h => absurd h (by decide)) And.right, fun h => Or.inr ⟨rfl, h⟩⟩

theorem not_endsLine {u : UInt16} (h : u ≠ 0x0A ∧ u ≠ 0x0D) (next : Option UInt16) :
    ¬EndsLine u next := fun hends => hends.elim h.1 fun hreturn => h.2 hreturn.1

/-- No line starts in a piece without breaks. -/
theorem lineStartsFrom_append {piece rest : Text} (h : ∀ u ∈ piece, u ≠ 0x0A ∧ u ≠ 0x0D)
    (pos : Nat) : lineStartsFrom pos (piece ++ rest) = lineStartsFrom (pos + piece.length) rest := by
  induction piece generalizing pos with
  | nil => rfl
  | cons u piece ih =>
    obtain ⟨hu, hpiece⟩ := List.forall_mem_cons.1 h
    rw [List.cons_append, lineStartsFrom, if_neg (not_endsLine hu _), ih hpiece, List.length_cons,
      Nat.add_assoc, Nat.add_comm 1]

/-! ## The tables -/

/-- A byte that the loop takes in a run: ASCII, and of no line ending. -/
def isPlain (b : UInt8) : Bool := !(decide (0x80 ≤ b) || b == 0x0A || b == 0x0D)

/-- `count..end` of 32-bit words. -/
def wordsBetween (count stop : UInt32) : List UInt32 :=
  (List.range (stop.toNat - count.toNat)).map fun k => count + UInt32.ofNat k

/-- `width`: the bytes of a scalar, by the first of them. -/
def widthOf (b : UInt8) : Nat := if b < 0x80 then 1 else if b < 0xE0 then 2 else if b < 0xF0 then 3 else 4

namespace LineIndex

/-- The loop of `LineIndex::new` from byte `i` of `size` on: what it adds to the tables. A turn takes
    a byte at least, so the bytes bound the turns. -/
def newFrom (size : Nat) : (fuel : Nat) → (i : Nat) → (count : UInt32) → List UInt8 → LineIndex
  | 0, _, count, _ => ⟨[], [size], [count]⟩
  | fuel + 1, i, count, bytes =>
    let run := (bytes.takeWhile isPlain).length
    let plain := wordsBetween count (count + UInt32.ofNat run)
    let count := count + UInt32.ofNat run
    let i := i + run
    match bytes.drop run with
    | [] => ⟨[], [size], plain ++ [count]⟩
    | b :: rest =>
      -- All bytes of a character have the offset of its first one.
      let width := widthOf b
      let words := plain ++ List.replicate width count
      let count := count + if width = 4 then 2 else 1
      if b = 0x0A then
        let li := newFrom size fuel (i + width) count (rest.drop (width - 1))
        ⟨(i + 1) :: li.lineStarts, i :: li.lineEnds, words ++ li.utf16⟩
      else if b = 0x0D then
        -- A carriage return and the line feed behind it are one break, that ends where the first
        -- starts.
        if rest.head? = some 0x0A then
          let li := newFrom size fuel (i + 1 + width) (count + 1) (rest.drop width)
          ⟨(i + 2) :: li.lineStarts, i :: li.lineEnds, words ++ count :: li.utf16⟩
        else
          let li := newFrom size fuel (i + width) count (rest.drop (width - 1))
          ⟨(i + 1) :: li.lineStarts, i :: li.lineEnds, words ++ li.utf16⟩
      else
        let li := newFrom size fuel (i + width) count (rest.drop (width - 1))
        ⟨li.lineStarts, li.lineEnds, words ++ li.utf16⟩

/-- `LineIndex::new`. -/
def new (bytes : List UInt8) : LineIndex :=
  let li := newFrom bytes.length bytes.length 0 0 bytes
  { li with lineStarts := 0 :: li.lineStarts }

/-- `LineIndex::line_of`, by a binary search: where the byte starts a line, or before the place where
    it would be put. -/
def lineOf (li : LineIndex) (byte : Nat) : Nat :=
  let at_ := Bisect.bisectFirst (fun i => decide (li.lineStarts.getD i 0 < byte)) 0
    li.lineStarts.length
  if li.lineStarts[at_]? = some byte then at_ else at_ - 1

example : new [0x61, 0x0D, 0x62, 0x0D, 0x0A, 0xC3, 0xA4] =
    ⟨[0, 2, 5], [1, 3, 7], [0, 1, 2, 3, 4, 5, 5, 6]⟩ := by decide

/-- The tables from scalar to scalar, from byte `i` and unit `count` on. -/
def ofChars : (i count : Nat) → List Char → LineIndex
  | i, count, [] => ⟨[], [i], [.ofNat count]⟩
  | i, count, '\r' :: '\n' :: cs =>
    let li := ofChars (i + 2) (count + 2) cs
    ⟨(i + 2) :: li.lineStarts, i :: li.lineEnds, UInt32.ofNat count :: UInt32.ofNat (count + 1) :: li.utf16⟩
  | i, count, c :: cs =>
    let li := ofChars (i + (String.utf8EncodeChar c).length) (count + (unitsOf c).length) cs
    let words := List.replicate (String.utf8EncodeChar c).length (.ofNat count) ++ li.utf16
    if c = '\n' ∨ c = '\r' then ⟨(i + 1) :: li.lineStarts, i :: li.lineEnds, words⟩
    else ⟨li.lineStarts, li.lineEnds, words⟩

theorem wordsBetween_self (count : UInt32) : wordsBetween count count = [] := by
  rw [wordsBetween, Nat.sub_self]
  rfl

/-- The words between two counts begin with the first. -/
theorem wordsBetween_succ {count : UInt32} {run : Nat} (h : count.toNat + run + 1 < 2 ^ 32) :
    wordsBetween count (count + UInt32.ofNat (run + 1)) =
      count :: wordsBetween (count + 1) (count + 1 + UInt32.ofNat run) := by
  have hone : (count + 1).toNat = count.toNat + 1 := by
    rw [UInt32.toNat_add]
    exact Nat.mod_eq_of_lt (by rw [UInt32.toNat_one]; omega)
  have hsum : UInt32.ofNat (run + 1) = 1 + UInt32.ofNat run := by
    rw [Nat.add_comm, UInt32.ofNat_add]
    rfl
  have hstop : (count + 1 + UInt32.ofNat run).toNat = count.toNat + run + 1 := by
    rw [UInt32.toNat_add, hone, UInt32.toNat_ofNat']
    omega
  rw [hsum, ← UInt32.add_assoc, wordsBetween, wordsBetween, hstop, hone,
    show count.toNat + run + 1 - count.toNat = run + 1 by omega,
    show count.toNat + run + 1 - (count.toNat + 1) = run by omega, List.range_succ_eq_map,
    List.map_cons, List.map_map]
  congr 1
  · exact UInt32.add_zero count
  · refine List.map_congr_left fun k _ => ?_
    dsimp only [Function.comp_apply]
    rw [Nat.succ_eq_add_one, Nat.add_comm, UInt32.ofNat_add,
      ← UInt32.add_assoc]
    rfl

/-- One byte more of a run. -/
theorem newFrom_plain {size fuel i : Nat} {count : UInt32} {b : UInt8} {bytes : List UInt8}
    (hb : isPlain b = true) (h : count.toNat + (bytes.length + 1) < 2 ^ 32) :
    newFrom size (fuel + 1) i count (b :: bytes) =
      { newFrom size (fuel + 1) (i + 1) (count + 1) bytes with
        utf16 := count :: (newFrom size (fuel + 1) (i + 1) (count + 1) bytes).utf16 } := by
  have hrun := (List.takeWhile_prefix (l := bytes) isPlain).length_le
  have hcount : count + UInt32.ofNat ((bytes.takeWhile isPlain).length + 1) =
      count + 1 + UInt32.ofNat (bytes.takeWhile isPlain).length := by
    rw [Nat.add_comm, UInt32.ofNat_add, ← UInt32.add_assoc]
    rfl
  rw [newFrom, newFrom, List.takeWhile_cons_of_pos hb, List.length_cons, List.drop_succ_cons,
    wordsBetween_succ (by omega), hcount, Nat.add_comm (bytes.takeWhile isPlain).length 1,
    ← Nat.add_assoc]
  cases bytes.drop (bytes.takeWhile isPlain).length with
  | nil => rfl
  | cons b' rest =>
    dsimp only
    split_ifs <;> rfl

/-- A turn where no run is taken. -/
theorem newFrom_scalar {size fuel i : Nat} {count : UInt32} {b : UInt8} {rest : List UInt8}
    (hb : isPlain b = false) : newFrom size (fuel + 1) i count (b :: rest) =
      let words := List.replicate (widthOf b) count
      let count := count + if widthOf b = 4 then 2 else 1
      let li := newFrom size fuel (i + widthOf b) count (rest.drop (widthOf b - 1))
      if b = 0x0A then ⟨(i + 1) :: li.lineStarts, i :: li.lineEnds, words ++ li.utf16⟩
      else if b = 0x0D then
        if rest.head? = some 0x0A then
          let li := newFrom size fuel (i + 1 + widthOf b) (count + 1) (rest.drop (widthOf b))
          ⟨(i + 2) :: li.lineStarts, i :: li.lineEnds, words ++ count :: li.utf16⟩
        else ⟨(i + 1) :: li.lineStarts, i :: li.lineEnds, words ++ li.utf16⟩
      else ⟨li.lineStarts, li.lineEnds, words ++ li.utf16⟩ := by
  have hzero : count + UInt32.ofNat 0 = count := UInt32.add_zero count
  rw [newFrom, List.takeWhile_cons_of_neg (Bool.eq_false_iff.1 hb)]
  simp only [List.length_nil, List.drop_zero, hzero, wordsBetween_self, List.nil_append,
    Nat.add_zero]

/-- A byte that is a scalar of its own is a line feed, or a carriage return, where that is. -/
theorem eq_feed_iff {b : UInt8} {c : Char} (h : b.toNat = c.toNat) : b = 0x0A ↔ c = '\n' := by
  rw [← UInt8.toNat_inj, h, ← Char.toNat_inj]
  rfl

theorem eq_return_iff {b : UInt8} {c : Char} (h : b.toNat = c.toNat) : b = 0x0D ↔ c = '\r' := by
  rw [← UInt8.toNat_inj, h, ← Char.toNat_inj]
  rfl

/-- No byte of a scalar past ASCII ends a line. -/
theorem not_break_of_le {b : UInt8} (h : 0x80 ≤ b.toNat) : b ≠ 0x0A ∧ b ≠ 0x0D := by
  constructor <;>
  · rintro rfl
    exact absurd h (by decide)

/-- A text begins with LF where its bytes do. -/
theorem head?_utf8 (cs : List Char) : (utf8 cs).head? = some 0x0A ↔ cs.head? = some '\n' := by
  cases cs with
  | nil => exact iff_of_false (by simp) (by simp)
  | cons c cs =>
    obtain ⟨b, rest, hbytes, h⟩ := utf8EncodeChar_spec c
    rw [utf8_cons, hbytes, List.cons_append, List.head?_cons, List.head?_cons, Option.some_inj,
      Option.some_inj]
    rcases h with ⟨-, -, hb⟩ | ⟨hwide, hsize⟩
    · exact eq_feed_iff hb
    · refine iff_of_false (not_break_of_le (hwide b List.mem_cons_self)).1 ?_
      rintro rfl
      rw [show ('\n').toNat = 0x0A from rfl] at hsize
      omega

theorem ofNat_add (count n : Nat) : UInt32.ofNat count + UInt32.ofNat n = UInt32.ofNat (count + n) :=
  (UInt32.ofNat_add count n).symm

/-- The pass over the bytes makes the tables of the scalars. -/
theorem newFrom_utf8 {size fuel i count : Nat} {cs : List Char} (hfuel : (utf8 cs).length ≤ fuel)
    (hsize : i + (utf8 cs).length = size) (hcount : count + (utf8 cs).length < 2 ^ 32) :
    newFrom size fuel i (.ofNat count) (utf8 cs) = ofChars i count cs := by
  -- By induction on the scalars: a CRLF, a break on its own, a scalar in a run of ASCII, and one
  -- past ASCII, which the pass takes by its first byte.
  induction i, count, cs using ofChars.induct generalizing fuel with
  | case1 i count =>
    obtain rfl : i = size := hsize
    cases fuel with
    | zero => rfl
    | succ fuel =>
      have hzero : UInt32.ofNat count + UInt32.ofNat 0 = UInt32.ofNat count := UInt32.add_zero _
      simp only [utf8_nil, newFrom, List.takeWhile_nil, List.length_nil, List.drop_nil, hzero,
        wordsBetween_self, List.nil_append, ofChars]
  | case2 i count cs ih =>
    rw [utf8_cons, utf8_cons, utf8EncodeChar_return, utf8EncodeChar_feed, List.singleton_append,
      List.singleton_append] at hfuel hsize hcount ⊢
    rw [List.length_cons, List.length_cons] at hfuel hsize hcount
    obtain ⟨fuel, rfl⟩ := Nat.exists_eq_add_of_lt (show 0 < fuel by omega)
    have hrest := @ih (0 + fuel) (by omega) (by omega) (by omega)
    have htwo : UInt32.ofNat count + UInt32.ofNat 2 = UInt32.ofNat count + 1 + 1 :=
      (UInt32.add_assoc _ 1 1).symm
    rw [newFrom_scalar rfl, ofChars, ← hrest, ← ofNat_add, ← ofNat_add, htwo]
    rfl
  | case3 i count c cs hbare hbreak ih =>
    have hbyte : String.utf8EncodeChar c = [if c = '\n' then 0x0A else 0x0D] := by
      rcases hbreak with rfl | rfl <;> rfl
    have hunits : (unitsOf c).length = 1 := by
      rcases hbreak with rfl | rfl <;> rfl
    rw [utf8_cons, hbyte, List.singleton_append, List.length_cons] at hfuel hsize hcount
    rw [hbyte, List.length_singleton, hunits] at ih
    obtain ⟨fuel, rfl⟩ := Nat.exists_eq_add_of_lt (show 0 < fuel by omega)
    have hrest := @ih (0 + fuel) (by omega) (by omega) (by omega)
    have hnext : c = '\r' → ¬(utf8 cs).head? = some 0x0A := fun hc hhead => by
      obtain ⟨cs', rfl⟩ := List.head?_eq_some_iff.1 ((head?_utf8 cs).1 hhead)
      exact hbare cs' hc rfl
    rw [ofChars.eq_3 _ _ _ _ hbare, if_pos hbreak, hunits, utf8_cons, hbyte, List.length_singleton,
      ← hrest, ← ofNat_add]
    rcases hbreak with rfl | rfl
    · rw [if_pos rfl, List.singleton_append, newFrom_scalar rfl]
      rfl
    · rw [if_neg (by decide), List.singleton_append, newFrom_scalar rfl]
      dsimp only
      rw [if_neg (by decide), if_pos rfl, if_neg (hnext rfl)]
      rfl
  | case4 i count c cs hbare hplain ih =>
    obtain ⟨b, rest, hbytes, hchar⟩ := utf8EncodeChar_spec c
    have hunits := length_unitsOf c
    rw [utf8_cons, hbytes, List.cons_append, List.length_cons, List.length_append]
      at hfuel hsize hcount
    obtain ⟨fuel, rfl⟩ := Nat.exists_eq_add_of_lt (show 0 < fuel by omega)
    rw [hbytes, List.length_cons] at ih
    rw [ofChars.eq_3 _ _ _ _ hbare, if_neg hplain, utf8_cons, hbytes, List.cons_append,
      List.length_cons]
    rw [not_or] at hplain
    rcases hchar with ⟨hascii, rfl, hb⟩ | ⟨hwide, hfirst⟩
    · -- One byte more of a run.
      rw [if_pos (by omega)] at hunits
      rw [hunits] at ih ⊢
      have hrest := @ih (0 + fuel + 1) (by omega) (by rw [List.length_nil] at *; omega)
        (by rw [List.length_nil] at *; omega)
      have hrun : isPlain b = true := by
        rw [isPlain, Bool.not_eq_true', Bool.or_eq_false_iff, Bool.or_eq_false_iff]
        refine ⟨⟨decide_eq_false ?_, ?_⟩, ?_⟩
        · rw [UInt8.le_iff_toNat_le, hb]
          exact not_le.2 (Nat.lt_succ_of_le hascii)
        · exact beq_eq_false_iff_ne.2 (mt (eq_feed_iff hb).1 hplain.1)
        · exact beq_eq_false_iff_ne.2 (mt (eq_return_iff hb).1 hplain.2)
      rw [List.nil_append, newFrom_plain hrun, ← hrest, ← ofNat_add]
      · rfl
      · rw [UInt32.toNat_ofNat']
        have := Nat.mod_le count (2 ^ 32)
        rw [List.length_nil] at hcount
        omega
    · -- A scalar past ASCII.
      have hfirst' : (widthOf b = rest.length + 1) ∧ (widthOf b = 4 ↔ ¬c.toNat < 0x10000) := by
        have hle := hwide b List.mem_cons_self
        simp only [widthOf, UInt8.lt_iff_toNat_lt, UInt8.reduceToNat]
        split_ifs <;> omega
      have hunits' : UInt32.ofNat (unitsOf c).length = if widthOf b = 4 then 2 else 1 := by
        rw [hunits]
        by_cases hbig : c.toNat < 0x10000
        · rw [if_pos hbig, if_neg fun h => hfirst'.2.1 h hbig]
          rfl
        · rw [if_neg hbig, if_pos (hfirst'.2.2 hbig)]
          rfl
      obtain ⟨hfeed, hreturn⟩ := not_break_of_le (hwide b List.mem_cons_self)
      have hrun : isPlain b = false := by
        rw [isPlain, Bool.not_eq_false', Bool.or_eq_true, Bool.or_eq_true]
        refine Or.inl (Or.inl (decide_eq_true ?_))
        rw [UInt8.le_iff_toNat_le]
        exact hwide b List.mem_cons_self
      have hle : (unitsOf c).length ≤ rest.length + 1 := by
        rw [hunits]
        split_ifs <;> omega
      have hrest := @ih (0 + fuel) (by omega) (by omega) (by omega)
      rw [newFrom_scalar hrun, if_neg hfeed, if_neg hreturn, ← hrest, ← ofNat_add, hunits', hfirst'.1,
        Nat.add_sub_cancel, List.drop_left]

/-- The line index of a text is made character by character. -/
theorem new_utf8 {cs : List Char} (h : (utf8 cs).length < 2 ^ 32) :
    new (utf8 cs) = { ofChars 0 0 cs with lineStarts := 0 :: (ofChars 0 0 cs).lineStarts } := by
  have hpass := @newFrom_utf8 _ _ _ 0 _ (le_refl (utf8 cs).length)
    (Nat.zero_add (utf8 cs).length) (by rwa [Nat.zero_add])
  rw [new, ← hpass]
  rfl

/-- One entry a byte, and one more. -/
theorem length_utf16_ofChars (i count : Nat) (cs : List Char) :
    (ofChars i count cs).utf16.length = (utf8 cs).length + 1 := by
  induction i, count, cs using ofChars.induct with
  | case1 i count => rfl
  | case2 i count cs ih =>
    rw [ofChars, List.length_cons, List.length_cons, ih]
    rfl
  | case3 i count c cs hbare hbreak ih =>
    rw [ofChars.eq_3 _ _ _ _ hbare, if_pos hbreak, List.length_append, List.length_replicate, ih,
      utf8_cons, List.length_append, Nat.add_assoc]
  | case4 i count c cs hbare hplain ih =>
    rw [ofChars.eq_3 _ _ _ _ hbare, if_neg hplain, List.length_append, List.length_replicate, ih,
      utf8_cons, List.length_append, Nat.add_assoc]

/-- What the table holds does not depend on line endings. -/
theorem utf16_ofChars_cons (i count : Nat) (c : Char) (cs : List Char) :
    (ofChars i count (c :: cs)).utf16 =
      List.replicate (String.utf8EncodeChar c).length (.ofNat count) ++
        (ofChars (i + (String.utf8EncodeChar c).length) (count + (unitsOf c).length) cs).utf16 := by
  by_cases hcrlf : ∃ rest, c = '\r' ∧ cs = '\n' :: rest
  · obtain ⟨rest, rfl, rfl⟩ := hcrlf
    have hbare : ∀ rest', '\n' = '\r' → rest = '\n' :: rest' → False :=
      fun _ h => absurd h (by decide)
    rw [ofChars, ofChars.eq_3 _ _ _ _ hbare, if_pos (Or.inl rfl)]
    rfl
  · rw [ofChars.eq_3 _ _ _ _ fun rest hc hrest => hcrlf ⟨rest, hc, hrest⟩]
    split_ifs <;> rfl

/-- The entry of a scalar boundary counts the units before it. -/
theorem getElem?_utf16_ofChars (i count : Nat) (before after : List Char) :
    (ofChars i count (before ++ after)).utf16[(utf8 before).length]? =
      some (.ofNat (count + (units before).length)) := by
  induction before generalizing i count with
  | nil =>
    cases after with
    | nil => rfl
    | cons c cs =>
      obtain ⟨b, rest, hbytes, -⟩ := utf8EncodeChar_spec c
      rw [List.nil_append, utf16_ofChars_cons, hbytes]
      rfl
  | cons c cs ih =>
    rw [List.cons_append, utf16_ofChars_cons, utf8_cons, List.length_append,
      List.getElem?_append_right (by rw [List.length_replicate]; exact Nat.le_add_right _ _),
      List.length_replicate, Nat.add_sub_cancel_left, ih, units_cons, List.length_append,
      Nat.add_assoc]

/-- As many lines start as in the UTF-16 form. -/
theorem length_lineStarts_ofChars (i count pos : Nat) (cs : List Char) :
    (ofChars i count cs).lineStarts.length = (lineStartsFrom pos (units cs)).length := by
  induction i, count, cs using ofChars.induct generalizing pos with
  | case1 i count => rfl
  | case2 i count cs ih =>
    rw [units_cons, units_cons, unitsOf_return, unitsOf_feed, List.singleton_append,
      List.singleton_append, lineStartsFrom, List.head?_cons, if_neg fun h => endsLine_return.1 h rfl,
      lineStartsFrom, if_pos (endsLine_feed _), ofChars, List.length_cons, List.length_cons, ih]
  | case3 i count c cs hbare hbreak ih =>
    rw [ofChars.eq_3 _ _ _ _ hbare, if_pos hbreak, List.length_cons, ih (pos + 1), units_cons]
    rcases hbreak with rfl | rfl
    · rw [unitsOf_feed, List.singleton_append, lineStartsFrom, if_pos (endsLine_feed _),
        List.length_cons]
    · have hnext : (units cs).head? ≠ some 0x0A := fun hhead => by
        obtain ⟨cs', rfl⟩ := List.head?_eq_some_iff.1 ((head?_units cs).1 hhead)
        exact hbare cs' rfl rfl
      rw [unitsOf_return, List.singleton_append, lineStartsFrom,
        if_pos (endsLine_return.2 hnext), List.length_cons]
  | case4 i count c cs hbare hplain ih =>
    rw [not_or] at hplain
    rw [ofChars.eq_3 _ _ _ _ hbare, if_neg (not_or.2 hplain), units_cons,
      lineStartsFrom_append (not_break_of_mem_unitsOf hplain.1 hplain.2), ih]

end LineIndex

/-- Starts and ends that split the bytes from `i` on into lines: at each line feed, at each carriage
    return and line feed, and at each carriage return alone. -/
inductive SplitsLines : (i : Nat) → List UInt8 → (starts ends : List Nat) → Prop
  | last {i : Nat} {line : List UInt8} (hline : ∀ b ∈ line, b ≠ 0x0A ∧ b ≠ 0x0D) :
      SplitsLines i line [i] [i + line.length]
  | feed {i : Nat} {line rest : List UInt8} {starts ends : List Nat}
      (hline : ∀ b ∈ line, b ≠ 0x0A ∧ b ≠ 0x0D)
      (hrest : SplitsLines (i + line.length + 1) rest starts ends) :
      SplitsLines i (line ++ 0x0A :: rest) (i :: starts) ((i + line.length) :: ends)
  | returnFeed {i : Nat} {line rest : List UInt8} {starts ends : List Nat}
      (hline : ∀ b ∈ line, b ≠ 0x0A ∧ b ≠ 0x0D)
      (hrest : SplitsLines (i + line.length + 2) rest starts ends) :
      SplitsLines i (line ++ 0x0D :: 0x0A :: rest) (i :: starts) ((i + line.length) :: ends)
  | bareReturn {i : Nat} {line rest : List UInt8} {starts ends : List Nat}
      (hline : ∀ b ∈ line, b ≠ 0x0A ∧ b ≠ 0x0D) (hbare : rest.head? ≠ some 0x0A)
      (hrest : SplitsLines (i + line.length + 1) rest starts ends) :
      SplitsLines i (line ++ 0x0D :: rest) (i :: starts) ((i + line.length) :: ends)

namespace SplitsLines

variable {i : Nat} {bytes : List UInt8} {starts ends : List Nat}

/-- More of a line before its rest. -/
theorem extend {more : List UInt8} (hmore : ∀ b ∈ more, b ≠ 0x0A ∧ b ≠ 0x0D)
    (h : SplitsLines (i + more.length) bytes starts ends) :
    SplitsLines i (more ++ bytes) (i :: starts.tail) ends := by
  have hjoin : ∀ line : List UInt8, (∀ b ∈ line, b ≠ 0x0A ∧ b ≠ 0x0D) →
      ∀ b ∈ more ++ line, b ≠ 0x0A ∧ b ≠ 0x0D := fun line hline =>
    List.forall_mem_append.2 ⟨hmore, hline⟩
  have hplace : ∀ line : List UInt8, i + more.length + line.length = i + (more ++ line).length :=
    fun line => by rw [List.length_append, Nat.add_assoc]
  cases h with
  | last hline =>
    rw [hplace]
    exact last (hjoin _ hline)
  | feed hline hrest =>
    rw [hplace] at hrest ⊢
    rw [← List.append_assoc]
    exact feed (hjoin _ hline) hrest
  | returnFeed hline hrest =>
    rw [hplace] at hrest ⊢
    rw [← List.append_assoc]
    exact returnFeed (hjoin _ hline) hrest
  | bareReturn hline hbare hrest =>
    rw [hplace] at hrest ⊢
    rw [← List.append_assoc]
    exact bareReturn (hjoin _ hline) hbare hrest

/-- The lines start one behind the other, the first where the bytes start. -/
theorem pairwise (h : SplitsLines i bytes starts ends) :
    starts.head? = some i ∧ (∀ s ∈ starts, i ≤ s) ∧ starts.Pairwise (· < ·) := by
  induction h with
  | last hline => exact ⟨rfl, by simp, List.pairwise_singleton _ _⟩
  | feed hline hrest ih | returnFeed hline hrest ih | bareReturn hline hbare hrest ih =>
    obtain ⟨-, hle, hlt⟩ := ih
    refine ⟨rfl, List.forall_mem_cons.2 ⟨le_rfl, fun s hs => ?_⟩, List.pairwise_cons.2
      ⟨fun s hs => ?_, hlt⟩⟩
    · have := hle s hs
      omega
    · have := hle s hs
      omega

/-- The offset `s` of some bytes, which start at `i`, is behind a line ending. -/
def BehindBreak (i : Nat) (bytes : List UInt8) (s : Nat) : Prop :=
  ∃ before b rest, bytes = before ++ b :: rest ∧ s = i + before.length + 1 ∧ (b = 0x0A ∨ b = 0x0D)

/-- A place behind a break stays so with a piece in front. -/
theorem BehindBreak.prepend {s : Nat} (piece : List UInt8)
    (h : BehindBreak (i + piece.length) bytes s) : BehindBreak i (piece ++ bytes) s := by
  obtain ⟨before, b, rest, rfl, rfl, hb⟩ := h
  refine ⟨piece ++ before, b, rest, by simp, ?_, hb⟩
  rw [List.length_append, Nat.add_assoc i]

/-- A line other than the first starts behind a line ending. -/
theorem behindBreak (h : SplitsLines i bytes starts ends) {s : Nat} (hs : s ∈ starts) :
    s = i ∨ BehindBreak i bytes s := by
  induction h with
  | last hline => exact Or.inl (List.mem_singleton.1 hs)
  | @feed i line rest starts ends hline hrest ih =>
    rcases List.mem_cons.1 hs with rfl | hs
    · exact Or.inl rfl
    · rcases ih hs with rfl | hbehind
      · exact Or.inr ⟨line, 0x0A, rest, rfl, rfl, Or.inl rfl⟩
      · have := BehindBreak.prepend (line ++ [0x0A]) (by simpa [← Nat.add_assoc] using hbehind)
        exact Or.inr (by simpa using this)
  | @returnFeed i line rest starts ends hline hrest ih =>
    rcases List.mem_cons.1 hs with rfl | hs
    · exact Or.inl rfl
    · rcases ih hs with rfl | hbehind
      · exact Or.inr ⟨line ++ [0x0D], 0x0A, rest, by simp, by simp [← Nat.add_assoc], Or.inl rfl⟩
      · have := BehindBreak.prepend (line ++ [0x0D, 0x0A])
          (by simpa [← Nat.add_assoc] using hbehind)
        exact Or.inr (by simpa using this)
  | @bareReturn i line rest starts ends hline hbare hrest ih =>
    rcases List.mem_cons.1 hs with rfl | hs
    · exact Or.inl rfl
    · rcases ih hs with rfl | hbehind
      · exact Or.inr ⟨line, 0x0D, rest, rfl, rfl, Or.inr rfl⟩
      · have := BehindBreak.prepend (line ++ [0x0D]) (by simpa [← Nat.add_assoc] using hbehind)
        exact Or.inr (by simpa using this)

end SplitsLines

namespace LineIndex

/-- The bytes of any other character are no line breaks. -/
theorem not_break_of_mem_utf8EncodeChar {c : Char} (hfeed : c ≠ '\n') (hreturn : c ≠ '\r') :
    ∀ b ∈ String.utf8EncodeChar c, b ≠ 0x0A ∧ b ≠ 0x0D := by
  obtain ⟨b, rest, hbytes, ⟨-, rfl, hb⟩ | ⟨hwide, -⟩⟩ := utf8EncodeChar_spec c
  · rw [hbytes]
    refine List.forall_mem_singleton.2 ⟨?_, ?_⟩
    · exact mt (eq_feed_iff hb).1 hfeed
    · exact mt (eq_return_iff hb).1 hreturn
  · rw [hbytes]
    exact fun b' hb' => not_break_of_le (hwide b' hb')

/-- The tables split the bytes at their line endings. -/
theorem splitsLines_ofChars (i count : Nat) (cs : List Char) :
    SplitsLines i (utf8 cs) (i :: (ofChars i count cs).lineStarts) (ofChars i count cs).lineEnds := by
  have hnil : ∀ b ∈ ([] : List UInt8), b ≠ 0x0A ∧ b ≠ 0x0D := fun _ hb =>
    absurd hb List.not_mem_nil
  induction i, count, cs using ofChars.induct with
  | case1 i count => exact SplitsLines.last hnil
  | case2 i count cs ih =>
    rw [utf8_cons, utf8_cons, utf8EncodeChar_return, utf8EncodeChar_feed, ofChars]
    exact SplitsLines.returnFeed hnil ih
  | case3 i count c cs hbare hbreak ih =>
    rw [ofChars.eq_3 _ _ _ _ hbare, if_pos hbreak, utf8_cons]
    rcases hbreak with rfl | rfl
    · exact SplitsLines.feed hnil ih
    · refine SplitsLines.bareReturn hnil (fun hhead => ?_) ih
      obtain ⟨cs', rfl⟩ := List.head?_eq_some_iff.1 ((head?_utf8 cs).1 hhead)
      exact hbare cs' rfl rfl
  | case4 i count c cs hbare hplain ih =>
    rw [not_or] at hplain
    rw [ofChars.eq_3 _ _ _ _ hbare, if_neg (not_or.2 hplain), utf8_cons]
    exact SplitsLines.extend (not_break_of_mem_utf8EncodeChar hplain.1 hplain.2) ih

/-- The tables of a source split its lines. -/
theorem splitsLines_new {cs : List Char} (h : (utf8 cs).length < 2 ^ 32) :
    SplitsLines 0 (utf8 cs) (new (utf8 cs)).lineStarts (new (utf8 cs)).lineEnds := by
  rw [new_utf8 h]
  exact splitsLines_ofChars 0 0 cs

/-- The line found for a byte is the last one that starts at or before it. -/
theorem lineOf_spec {li : LineIndex} (hstarts : li.lineStarts.Pairwise (· < ·))
    (hfirst : li.lineStarts.head? = some 0) (byte : Nat) :
    (∃ start, li.lineStarts[li.lineOf byte]? = some start ∧ start ≤ byte) ∧
      ∀ line start, li.lineStarts[line]? = some start → start ≤ byte → line ≤ li.lineOf byte := by
  have hlt : ∀ i j a b : Nat, i < j → li.lineStarts[i]? = some a → li.lineStarts[j]? = some b → a < b := by
    intro i j a b hij ha hb
    obtain ⟨hi, rfl⟩ := List.getElem?_eq_some_iff.1 ha
    obtain ⟨hj, rfl⟩ := List.getElem?_eq_some_iff.1 hb
    exact List.pairwise_iff_getElem.1 hstarts i j hi hj hij
  have hget : ∀ i < li.lineStarts.length, li.lineStarts[i]? = some (li.lineStarts.getD i 0) := by
    intro i hi
    rw [List.getD_eq_getElem _ _ hi, List.getElem?_eq_getElem hi]
  obtain ⟨-, hle, hsearch⟩ := Bisect.bisectFirst_spec
    (p := fun i => decide (li.lineStarts.getD i 0 < byte)) (Nat.zero_le li.lineStarts.length)
    fun i j _ hij hj hd => by
      rw [decide_eq_true_eq] at hd ⊢
      rcases hij.eq_or_lt with rfl | hij
      · exact hd
      · exact (hlt i j _ _ hij (hget i (hij.trans hj)) (hget j hj)).trans hd
  -- The search finds the first line that does not start before the byte: the line itself where it
  -- starts there, and the one before it else.
  rw [lineOf]
  generalize Bisect.bisectFirst (fun i => decide (li.lineStarts.getD i 0 < byte)) 0
    li.lineStarts.length = k at hle hsearch ⊢
  have hbefore : ∀ line start, li.lineStarts[line]? = some start → (start < byte ↔ line < k) := by
    intro line start hline
    obtain ⟨hi, rfl⟩ := List.getElem?_eq_some_iff.1 hline
    rw [← hsearch line (Nat.zero_le line) hi, decide_eq_true_eq, List.getD_eq_getElem _ _ hi]
  rw [List.head?_eq_getElem?] at hfirst
  split_ifs with hfound
  · refine ⟨⟨byte, hfound, le_rfl⟩, fun line start hline hstart => not_lt.1 fun hk => ?_⟩
    have := hlt k line _ _ hk hfound hline
    omega
  · -- No line starts at the byte, and the first line starts before it.
    have hpos : 0 < k := by
      by_contra hzero
      obtain rfl : k = 0 := by omega
      have := (hbefore 0 0 hfirst).not.2 (lt_irrefl 0)
      obtain rfl : byte = 0 := by omega
      exact hfound hfirst
    have hprev : k - 1 < li.lineStarts.length := by omega
    refine ⟨⟨_, hget _ hprev, ?_⟩, fun line start hline hstart => ?_⟩
    · exact ((hbefore _ _ (hget _ hprev)).2 (by omega)).le
    · rcases hstart.lt_or_eq with hstart | rfl
      · have := (hbefore line start hline).1 hstart
        omega
      · refine Nat.le_sub_one_of_lt (lt_of_not_ge fun hge => ?_)
        rcases hge.eq_or_lt with rfl | hgt
        · exact hfound hline
        · have hk : k < li.lineStarts.length := by
            have := (List.getElem?_eq_some_iff.1 hline).1
            omega
          have hstep := hlt k line _ _ hgt (hget k hk) hline
          exact absurd ((hbefore k _ (hget k hk)).1 hstep) (lt_irrefl k)

end LineIndex

/-! ## The counts of the kernel -/

/-- A piece without LF goes on with the first line. -/
theorem splitOn_append {piece : Text} (h : ∀ u ∈ piece, u ≠ 0x0A) (rest : Text) :
    (piece ++ rest).splitOn 0x0A = (rest.splitOn 0x0A).modifyHead (piece ++ ·) := by
  induction piece with
  | nil => exact (congrFun List.modifyHead_id _).symm
  | cons u piece ih =>
    obtain ⟨hu, hpiece⟩ := List.forall_mem_cons.1 h
    rw [List.cons_append, List.splitOn_cons_eq_if_modifyHead, if_neg (by simpa using hu), ih hpiece,
      List.modifyHead_modifyHead]
    rfl

/-- How wide the widest line is, from a place `width` units into a line on. Lines are what line feeds
    part. -/
noncomputable def widestFrom (width : Nat) (rest : Text) : Nat :=
  (((rest.splitOn 0x0A).map List.length).modifyHead (width + ·)).foldr max 0

theorem widestFrom_nil (width : Nat) : widestFrom width [] = width := Nat.max_eq_left (Nat.zero_le _)

/-- A line that ends is as wide as it got. -/
theorem widestFrom_feed (width : Nat) (rest : Text) :
    widestFrom width (0x0A :: rest) = max width (widestFrom 0 rest) := by
  have hzero : ((0 : Nat) + ·) = id := funext Nat.zero_add
  rw [widestFrom, widestFrom, List.splitOn_cons_eq_if_modifyHead, if_pos (beq_self_eq_true _), hzero,
    List.modifyHead_id]
  rfl

/-- A piece without LF widens the line. -/
theorem widestFrom_append {piece : Text} (h : ∀ u ∈ piece, u ≠ 0x0A) (width : Nat) (rest : Text) :
    widestFrom width (piece ++ rest) = widestFrom (width + piece.length) rest := by
  rw [widestFrom, widestFrom, splitOn_append h]
  congr 1
  cases rest.splitOn 0x0A with
  | nil => rfl
  | cons line lines =>
    rw [List.modifyHead_cons, List.map_cons, List.map_cons, List.modifyHead_cons,
      List.modifyHead_cons, List.length_append, Nat.add_assoc]

/-- LF ends a line of the statistics. -/
theorem count_feed (rest : Text) (bytes lines width widest : Nat) :
    SourceStats.count (0x0A :: rest) bytes lines width widest =
      SourceStats.count rest (bytes + 1) (lines + 1) 0 (max widest width) := by
  rw [SourceStats.count_cons]
  rw [if_pos rfl]
  congr 1
  split_ifs <;> omega

/-- CR counts as a unit in front of LF, and is refused elsewhere. -/
theorem count_return (rest : Text) (bytes lines width widest : Nat) :
    SourceStats.count (0x0D :: rest) bytes lines width widest =
      if rest.head? = some 0x0A then SourceStats.count rest (bytes + 1) lines (width + 1) widest
      else .invalid := by
  rw [SourceStats.count_cons]
  rw [if_neg (by decide), if_pos (by decide)]
  split_ifs with h₁ h₂ h₂
  · exact absurd h₂ h₁.2
  · rfl
  · rfl
  · exact absurd ⟨rfl, h₂⟩ h₁

/-- The loop takes a scalar at once. -/
theorem count_scalar {c : Char} (hfeed : c ≠ '\n') (hreturn : c ≠ '\r') (rest : Text)
    (bytes lines width widest : Nat) :
    SourceStats.count (unitsOf c ++ rest) bytes lines width widest =
      SourceStats.count rest (bytes + (String.utf8EncodeChar c).length) lines
        (width + (unitsOf c).length) widest := by
  obtain ⟨b, tail, hbytes, hchar⟩ := utf8EncodeChar_spec c
  -- A scalar of one unit takes one to three bytes by its size, and one of two units four.
  rcases unitsOf_spec c with ⟨hsmall, hunits, hunit⟩ | ⟨u, v, hunits, hhigh, hlow⟩
  · have hplain : ¬isHighSurrogate (.ofNat c.toNat) = true ∧
        ¬isLowSurrogate (.ofNat c.toNat) = true := by
      simp only [isHighSurrogate, isLowSurrogate, Bool.and_eq_true, decide_eq_true_eq,
        UInt16.le_iff_toNat_le, hunit, UInt16.reduceToNat]
      rcases c.valid with h | h
      · have : c.toNat < 0xD800 := h
        omega
      · have : 0xDFFF < c.toNat := h.1
        omega
    have hreturn' : ¬(UInt16.ofNat c.toNat = 0x0D ∧ rest.head? ≠ some 0x0A) := fun h =>
      hreturn ((ofNat_eq_return_iff hunit).1 h.1)
    rw [hunits, List.singleton_append, SourceStats.count_cons]
    rw [if_neg (mt (ofNat_eq_feed_iff hunit).1 hfeed), if_neg hreturn', if_neg hplain.1,
      if_neg hplain.2, hbytes, List.length_cons]
    simp only [UInt16.le_iff_toNat_le, hunit, UInt16.reduceToNat]
    rcases hchar with ⟨hascii, rfl, -⟩ | ⟨-, hfirst⟩
    · rw [if_pos hascii]
      rfl
    · split_ifs with h₁ h₂
      · omega
      · rw [show tail.length + 1 = 2 by omega]
        rfl
      · rw [show tail.length + 1 = 3 by omega]
        rfl
  · rw [hunits, List.cons_append, SourceStats.count_surrogate (Or.inl hhigh)]
    simp only [List.singleton_append, if_pos hhigh, if_pos hlow]
    have hlength := length_unitsOf c
    rw [hunits, List.length_cons, List.length_singleton] at hlength
    have hbig : ¬c.toNat < 0x10000 := fun hlt => by
      rw [if_pos hlt] at hlength
      omega
    rw [hbytes, List.length_cons, show tail.length + 1 = 4 by omega]
    rfl

/-- What the loop leaves, where it finds no fault: the bytes, the lines and the widest line. -/
theorem count_units {cs : List Char} {bytes lines width widest : Nat} (pos : Nat)
    (h : validateFlarkSource (units cs) = true) :
    SourceStats.count (units cs) bytes lines width widest =
      ⟨true, bytes + (utf8 cs).length, lines + (lineStartsFrom pos (units cs)).length,
        max widest (widestFrom width (units cs))⟩ := by
  rw [← SourceStats.valid_count (units cs) bytes lines width widest] at h
  induction cs generalizing bytes lines width widest pos with
  | nil =>
    rw [units_nil, widestFrom_nil, SourceStats.count]
    congr 1
    split_ifs <;> omega
  | cons c cs ih =>
    rw [units_cons, utf8_cons] at *
    by_cases hfeed : c = '\n'
    · subst hfeed
      rw [unitsOf_feed, List.singleton_append, count_feed] at h ⊢
      rw [ih (pos + 1) h, widestFrom_feed, lineStartsFrom, if_pos (endsLine_feed _), List.length_cons,
        utf8EncodeChar_feed, List.length_append, List.length_singleton]
      congr 1 <;> omega
    by_cases hreturn : c = '\r'
    · subst hreturn
      rw [unitsOf_return, List.singleton_append, count_return] at h ⊢
      split_ifs at h ⊢ with hnext
      · have hwidest : widestFrom width (0x0D :: units cs) = widestFrom (width + 1) (units cs) :=
          @widestFrom_append [0x0D] (List.forall_mem_singleton.2 (by decide)) width (units cs)
        rw [ih (pos + 1) h, hwidest, lineStartsFrom,
          if_neg fun hends => endsLine_return.1 hends hnext, utf8EncodeChar_return,
          List.length_append, List.length_singleton, Nat.add_assoc]
      · exact absurd h Bool.false_ne_true
    · rw [count_scalar hfeed hreturn] at h ⊢
      rw [ih (pos + (unitsOf c).length) h, widestFrom_append, lineStartsFrom_append,
        List.length_append, Nat.add_assoc]
      · exact not_break_of_mem_unitsOf hfeed hreturn
      · exact fun u hu => (not_break_of_mem_unitsOf hfeed hreturn u hu).1

/-- A scalar of a value that is one. -/
theorem exists_char {n : Nat} (h : n < 0xD800 ∨ 0xDFFF < n ∧ n < 0x110000) :
    ∃ c : Char, c.toNat = n := by
  have hn : (UInt32.ofNat n).toNat = n := by
    rw [UInt32.toNat_ofNat']
    omega
  refine ⟨⟨.ofNat n, ?_⟩, hn⟩
  rw [UInt32.isValidChar, hn]
  exact h

/-- What an editor takes is the form of some scalars. -/
theorem exists_units {source : Text} (h : validateFlarkSource source = true) :
    ∃ cs, units cs = source := by
  refine validate_induction ⟨[], rfl⟩ (fun u low rest hhigh hlow ih => ?_)
    (fun u rest hhigh hlow _ ih => ?_) h
  · obtain ⟨cs, rfl⟩ := ih
    simp only [isHighSurrogate, isLowSurrogate, Bool.and_eq_true, decide_eq_true_eq,
      UInt16.le_iff_toNat_le, UInt16.reduceToNat] at hhigh hlow
    obtain ⟨c, hc⟩ := exists_char (n := 0x10000 + (u.toNat - 0xD800) * 0x400 + (low.toNat - 0xDC00))
      (by omega)
    have hu : (UInt16.ofNat (0xD800 + (c.toNat - 0x10000) / 0x400)) = u := by
      rw [show 0xD800 + (c.toNat - 0x10000) / 0x400 = u.toNat by omega]
      exact UInt16.ofNat_toNat
    have hv : (UInt16.ofNat (0xDC00 + (c.toNat - 0x10000) % 0x400)) = low := by
      rw [show 0xDC00 + (c.toNat - 0x10000) % 0x400 = low.toNat by omega]
      exact UInt16.ofNat_toNat
    refine ⟨c :: cs, ?_⟩
    rw [units_cons, unitsOf, if_neg (by omega), Nat.toUInt16_eq, Nat.toUInt16_eq, hu, hv]
    rfl
  · obtain ⟨cs, rfl⟩ := ih
    have hlt := u.toNat_lt
    simp only [isHighSurrogate, isLowSurrogate, Bool.and_eq_true, decide_eq_true_eq,
      UInt16.le_iff_toNat_le, UInt16.reduceToNat] at hhigh hlow
    obtain ⟨c, hc⟩ := exists_char (n := u.toNat) (by omega)
    refine ⟨c :: cs, ?_⟩
    rw [units_cons, unitsOf, if_pos (by omega), Nat.toUInt16_eq, hc, UInt16.ofNat_toNat]
    rfl

/-- Scalars whose bytes start those of others start them. -/
theorem prefix_of_utf8_prefix {cs ds : List Char} (h : utf8 cs <+: utf8 ds) : cs <+: ds := by
  obtain ⟨rest, hrest⟩ := h
  refine List.isPrefix_of_utf8Encode_append_eq_utf8Encode rest.toByteArray ?_
  rw [List.utf8Encode, List.utf8Encode, ← List.toByteArray_append]
  exact congrArg _ hrest

/-- Both sides read the same validity, sizes and lines from a source. One pass of the kernel decides
    what its own check does, and counts the bytes, the lines and the widest line of what is accepted.
    From the bytes of any text, accepted or with bare returns, the native side makes tables of as
    many lines and units: an entry a byte and one more that count the units before each scalar, and
    starts and ends that split the bytes at their line endings, of which it finds the last that
    starts at or before a byte. The length of the bytes is passed as a 32-bit word. -/
theorem same_lines :
    (∀ source : Text, (SourceStats.of source).valid = validateFlarkSource source) ∧
    (∀ source : Text, validateFlarkSource source = true →
      ∃ bytes, utf16OfUtf8 bytes = some source) ∧
    (∀ (source : Text) (bytes : List UInt8), validateFlarkSource source = true →
      utf16OfUtf8 bytes = some source →
        (SourceStats.of source).utf8Bytes = bytes.length ∧
        (SourceStats.of source).lines = lineTotal source ∧
        (SourceStats.of source).widestLine =
          ((source.splitOn 0x0A).map List.length).foldr max 0) ∧
    ∀ (source : Text) (bytes : List UInt8), utf16OfUtf8 bytes = some source →
      bytes.length < 2 ^ 32 →
        (LineIndex.new bytes).lineCount = lineTotal source ∧
        ((LineIndex.new bytes).u16 bytes.length).toNat = source.length ∧
        (LineIndex.new bytes).utf16.length = bytes.length + 1 ∧
        (∀ n before, n ≤ bytes.length → utf16OfUtf8 (bytes.take n) = some before →
          ((LineIndex.new bytes).utf16.getD n 0).toNat = before.length) ∧
        SplitsLines 0 bytes (LineIndex.new bytes).lineStarts (LineIndex.new bytes).lineEnds ∧
        ∀ byte,
          (∃ start, (LineIndex.new bytes).lineStarts[(LineIndex.new bytes).lineOf byte]? =
            some start ∧ start ≤ byte) ∧
          ∀ line start, (LineIndex.new bytes).lineStarts[line]? = some start → start ≤ byte →
            line ≤ (LineIndex.new bytes).lineOf byte := by
  refine ⟨SourceStats.valid_of, fun source h => ?_, fun source bytes h hform => ?_,
    fun source bytes hform hsize => ?_⟩
  · obtain ⟨cs, hcs⟩ := exists_units h
    exact ⟨utf8 cs, utf16OfUtf8_eq_some.2 ⟨cs, rfl, hcs⟩⟩
  -- Both sides are read off the scalars of the text: the statistics are those of its units,
  · obtain ⟨cs, rfl, rfl⟩ := utf16OfUtf8_eq_some.1 hform
    have hzero : ((0 : Nat) + ·) = id := funext Nat.zero_add
    rw [SourceStats.of, count_units 0 h, widestFrom, hzero, List.modifyHead_id]
    exact ⟨Nat.zero_add _, (Nat.add_comm _ _).trans rfl, Nat.max_eq_right (Nat.zero_le _)⟩
  · obtain ⟨cs, rfl, rfl⟩ := utf16OfUtf8_eq_some.1 hform
    -- and the tables those that the pass over its bytes makes.
    have htables := LineIndex.new_utf8 hsize
    have hsplits := LineIndex.splitsLines_ofChars 0 0 cs
    obtain ⟨hfirst, -, hstarts⟩ := hsplits.pairwise
    have hlength : (LineIndex.new (utf8 cs)).utf16.length = (utf8 cs).length + 1 := by
      rw [htables]
      exact LineIndex.length_utf16_ofChars 0 0 cs
    have hentry : ∀ before after, before ++ after = cs →
        ((LineIndex.new (utf8 cs)).utf16.getD (utf8 before).length 0).toNat =
          (units before).length := by
      rintro before after rfl
      have hle := length_units_le before
      rw [utf8, List.flatMap_append, List.length_append] at hsize
      change (utf8 before).length + (utf8 after).length < 2 ^ 32 at hsize
      rw [htables, List.getD_eq_getElem?_getD, LineIndex.getElem?_utf16_ofChars, Option.getD_some,
        Nat.zero_add, UInt32.toNat_ofNat']
      omega
    refine ⟨?_, ?_, hlength, fun n before hn hbefore => ?_, ?_, fun byte => ?_⟩
    · rw [LineIndex.lineCount, htables, List.length_cons,
        LineIndex.length_lineStarts_ofChars 0 0 0 cs]
      rfl
    · rw [LineIndex.u16, hlength, Nat.add_sub_cancel, Nat.min_self]
      exact hentry cs [] (List.append_nil cs)
    · obtain ⟨ds, hds, rfl⟩ := utf16OfUtf8_eq_some.1 hbefore
      obtain ⟨after, hafter⟩ := prefix_of_utf8_prefix (hds ▸ List.take_prefix n (utf8 cs))
      have hn' : (utf8 ds).length = n := by
        rw [hds, List.length_take, Nat.min_eq_left hn]
      rw [← hn']
      exact hentry ds after hafter
    · rw [htables]
      exact hsplits
    · rw [htables]
      exact LineIndex.lineOf_spec hstarts hfirst byte

/-- Two lines, of which the first ends in a return and a feed and the second is one wide letter. -/
theorem same_lines_mixed :
    let cs := ['a', '\r', '\n', 'ß']
    (SourceStats.of (units cs)).lines = 2 ∧ (SourceStats.of (units cs)).utf8Bytes = 5 ∧
      (LineIndex.new (utf8 cs)).lineCount = 2 ∧
      ((LineIndex.new (utf8 cs)).u16 5).toNat = 4 := by
  intro cs
  have hform : utf16OfUtf8 (utf8 cs) = some (units cs) := utf16OfUtf8_eq_some.2 ⟨cs, rfl, rfl⟩
  obtain ⟨-, -, hcounts, htables⟩ := same_lines
  obtain ⟨hbytes, hlines, -⟩ := hcounts (units cs) (utf8 cs) (by decide) hform
  obtain ⟨hcount, hunits, -⟩ := htables (units cs) (utf8 cs) hform (by decide)
  exact ⟨hlines.trans (by decide), hbytes, hcount.trans (by decide), hunits⟩

end Flark.Native
