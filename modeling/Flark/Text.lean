import Mathlib.Data.List.Basic

/-!
# Text

A string of the host is a list of UTF-16 code units (`Text`); offsets are integers that
count units, as the host's `int`s are. The strings of the native side are UTF-8 bytes,
which the host decodes with `utf8Decode`: as documented for `utf8.decode`, malformed bytes
throw, and an encoded byte order mark at the beginning is discarded.

`Graphemes` is the part of `package:characters` that the kernel uses: a way to cut a text
into user-perceived characters. Both the iteration over a whole string and the range at an
offset (`CharacterRange.at`) are read off the same cut.
-/

namespace Flark

/-- A string of the host: UTF-16 code units. -/
abbrev Text := List UInt16

/-- The code units of a scalar. -/
def unitsOf (c : Char) : Text :=
  if c.toNat < 0x10000 then [c.toNat.toUInt16]
  else [(0xD800 + (c.toNat - 0x10000) / 0x400).toUInt16,
    (0xDC00 + (c.toNat - 0x10000) % 0x400).toUInt16]

/-- The UTF-16 form of well-formed UTF-8; `none` for malformed bytes. -/
def utf16OfUtf8 (bytes : List UInt8) : Option Text :=
  (ByteArray.mk bytes.toArray).utf8Decode?.map fun chars => chars.toList.flatMap unitsOf

/-- U+FEFF encoded. -/
def bomBytes : List UInt8 := [0xEF, 0xBB, 0xBF]

/-- `utf8.decode`: a byte order mark at the beginning is discarded. -/
def utf8Decode (bytes : List UInt8) : Option Text :=
  utf16OfUtf8 (if bomBytes <+: bytes then bytes.drop bomBytes.length else bytes)

/-- A mark and what follows it decode to the mark and what follows it. -/
theorem utf16OfUtf8_bomBytes_append (bytes : List UInt8) :
    utf16OfUtf8 (bomBytes ++ bytes) = (utf16OfUtf8 bytes).map (0xFEFF :: ·) := by
  have hbom : ByteArray.mk (bomBytes ++ bytes).toArray =
      ['\uFEFF'].utf8Encode ++ ByteArray.mk bytes.toArray := by
    have hmark : ['\uFEFF'].utf8Encode = ByteArray.mk bomBytes.toArray := rfl
    rw [hmark]
    ext1
    simp
  rw [utf16OfUtf8, hbom, ByteArray.utf8Decode?_utf8Encode_singleton_append, utf16OfUtf8,
    Option.map_map, Option.map_map]
  exact congrArg (Option.map · _) (funext fun chars => by simp [unitsOf])

/-- Decoding loses nothing exactly when there is no mark to discard. -/
theorem utf8Decode_eq_iff {bytes : List UInt8} (h : (utf16OfUtf8 bytes).isSome) :
    utf8Decode bytes = utf16OfUtf8 bytes ↔ ¬bomBytes <+: bytes := by
  rw [utf8Decode]
  split
  · next hbom =>
    obtain ⟨rest, rfl⟩ := hbom
    rw [List.drop_left, utf16OfUtf8_bomBytes_append]
    rw [utf16OfUtf8_bomBytes_append, Option.isSome_map] at h
    obtain ⟨t, ht⟩ := Option.isSome_iff_exists.1 h
    simp [ht]
  · next hbom => simp [hbom]

namespace Text

/-- `substring`. -/
def substring (t : Text) (start stop : Int) : Text :=
  (t.drop start.toNat).take (stop - start).toNat

/-- `replaceRange`. -/
def replaceRange (t : Text) (start stop : Nat) (piece : Text) : Text :=
  t.take start ++ piece ++ t.drop stop

/-- `codeUnitAt`, zero past the end. -/
def codeUnitAt (t : Text) (i : Int) : UInt16 := t.getD i.toNat 0

/-- `startsWith` at an offset. -/
def startsWith (t piece : Text) (start : Int) : Bool := piece.isPrefixOf (t.drop start.toNat)

/-- The units of a `String` of the source, for its literals. -/
def ofString (s : String) : Text := s.toList.flatMap unitsOf

/-- The white space that `trimRight` removes: that of Unicode, and the byte order mark. -/
def isSpace (u : UInt16) : Bool :=
  u ∈ ([0x09, 0x0A, 0x0B, 0x0C, 0x0D, 0x20, 0x85, 0xA0, 0x1680, 0x2000, 0x2001, 0x2002, 0x2003,
    0x2004, 0x2005, 0x2006, 0x2007, 0x2008, 0x2009, 0x200A, 0x2028, 0x2029, 0x202F, 0x205F,
    0x3000, 0xFEFF] : List UInt16)

/-- `trimRight`. -/
def trimRight (t : Text) : Text := (t.reverse.dropWhile isSpace).reverse

/-- `trimLeft`. -/
def trimLeft (t : Text) : Text := t.dropWhile isSpace

/-- `trim`. -/
def trim (t : Text) : Text := t.trimRight.dropWhile isSpace

section

variable {t piece : Text} {a b : Int}

theorem length_substring_le (t : Text) (a b : Int) :
    (t.substring a b).length ≤ (b - a).toNat := List.length_take_le _ _

/-- A stretch within the text is as long as it says. -/
theorem length_substring (ha : 0 ≤ a) (hb : b ≤ t.length) :
    (t.substring a b).length = (b - a).toNat := by
  rw [substring, List.length_take, List.length_drop]
  omega

/-- A stretch within the first text does not see the second. -/
theorem substring_append (ha : 0 ≤ a) (hb : b ≤ t.length) :
    (t ++ piece).substring a b = t.substring a b := by
  rw [substring, substring]
  rcases Int.lt_or_le b a with h | h
  · rw [show (b - a).toNat = 0 by omega, List.take_zero, List.take_zero]
  · rw [List.drop_append_of_le_length (by omega), List.take_append_of_le_length]
    rw [List.length_drop]
    omega

/-- The rest of an appended piece, from its unit `k` on. -/
theorem substring_append_drop (t piece : Text) (k : Nat) :
    (t ++ piece).substring (t.length + k : Nat) (t.length + piece.length : Nat) =
      piece.drop k := by
  rw [substring, Int.toNat_natCast, List.drop_append, List.drop_eq_nil_of_le (Nat.le_add_right _ _),
    List.nil_append, Nat.add_sub_cancel_left]
  refine List.take_of_length_le ?_
  rw [List.length_drop]
  omega

/-- A stretch without its front starts further on. -/
theorem drop_substring (t : Text) (ha : 0 ≤ a) (k : Nat) :
    (t.substring a b).drop k = t.substring (a + k) b := by
  rw [substring, substring, List.drop_take, List.drop_drop]
  congr 1
  · omega
  · rw [show (a + k).toNat = a.toNat + k by omega]

/-- The front of a stretch ends sooner. -/
theorem take_substring (t : Text) {k : Nat} (hk : (k : Int) ≤ b - a) :
    (t.substring a b).take k = t.substring a (a + k) := by
  rw [substring, substring, List.take_take]
  congr 1
  omega

theorem substring_one {i : Nat} {u : UInt16} (h : t[i]? = some u) :
    t.substring i (i + 1 : Nat) = [u] := by
  obtain ⟨hi, hu⟩ := List.getElem?_eq_some_iff.1 h
  rw [substring, Int.toNat_natCast, show ((i + 1 : Nat) - (i : Int)).toNat = 1 by omega,
    List.drop_eq_getElem_cons hi, List.take_succ_cons, List.take_zero, hu]

theorem substring_two {i : Nat} {u v : UInt16} (h : t[i]? = some u) (h' : t[i + 1]? = some v) :
    t.substring i (i + 2 : Nat) = [u, v] := by
  obtain ⟨hi, hu⟩ := List.getElem?_eq_some_iff.1 h
  obtain ⟨hi', hv⟩ := List.getElem?_eq_some_iff.1 h'
  rw [substring, Int.toNat_natCast, show ((i + 2 : Nat) - (i : Int)).toNat = 2 by omega,
    List.drop_eq_getElem_cons hi, List.drop_eq_getElem_cons hi', List.take_succ_cons,
    List.take_succ_cons, List.take_zero, hu, hv]

/-- A stretch is its part up to a place and its part from there on. -/
theorem substring_split {i j k : Nat} (hij : i ≤ j) (hjk : j ≤ k) :
    t.substring i k = t.substring i j ++ t.substring j k := by
  simp only [substring, Int.toNat_natCast]
  rw [show ((k : Int) - i).toNat = (j - i) + (k - j) by omega, List.take_add, List.drop_drop,
    Nat.add_sub_cancel' hij, show ((j : Int) - i).toNat = j - i by omega,
    show ((k : Int) - j).toNat = k - j by omega]

/-- What is behind a place is a stretch and what is behind it. -/
theorem drop_split {i j : Nat} (h : i ≤ j) : t.drop i = t.substring i j ++ t.drop j := by
  rw [substring, Int.toNat_natCast, show ((j : Int) - i).toNat = j - i by omega]
  conv_lhs => rw [← List.take_append_drop (j - i) (t.drop i), List.drop_drop,
    Nat.add_sub_cancel' h]

/-- A range of the first text is replaced in it. -/
theorem replaceRange_append_left {start stop : Nat} (hstart : start ≤ t.length)
    (hstop : stop ≤ t.length) (rest : Text) :
    (t ++ rest).replaceRange start stop piece = t.replaceRange start stop piece ++ rest := by
  rw [replaceRange, replaceRange, List.take_append_of_le_length hstart,
    List.drop_append_of_le_length hstop, List.append_assoc (t.take start ++ piece)]

/-- A range of the second text is replaced in it. -/
theorem replaceRange_append_right (before : Text) (start stop : Nat) :
    (before ++ t).replaceRange (before.length + start) (before.length + stop) piece =
      before ++ t.replaceRange start stop piece := by
  rw [replaceRange, replaceRange, List.take_length_add_append, List.drop_length_add_append,
    List.append_assoc, List.append_assoc, List.append_assoc]

/-- The length after a replacement. -/
theorem length_replaceRange {start stop : Nat} (hstart : start ≤ t.length) :
    (t.replaceRange start stop piece).length = start + piece.length + (t.length - stop) := by
  rw [replaceRange, List.length_append, List.length_append, List.length_take, List.length_drop,
    Nat.min_eq_left hstart]

/-! The units of a replacement: those before the range, those put there, those behind it. -/

/-- In front of the range the units stay. -/
theorem codeUnitAt_replaceRange_before {start stop i : Nat} (hi : i < start)
    (hstart : start ≤ t.length) :
    (t.replaceRange start stop piece).codeUnitAt i = t.codeUnitAt i := by
  rw [codeUnitAt, codeUnitAt, replaceRange, Int.toNat_natCast, List.getD_eq_getElem?_getD,
    List.getD_eq_getElem?_getD, List.append_assoc,
    List.getElem?_append_left (by rw [List.length_take]; omega), List.getElem?_take_of_lt hi]

/-- In the range stand the units of the replacement. -/
theorem codeUnitAt_replaceRange_inserted {start stop k : Nat} (hk : k < piece.length)
    (hstart : start ≤ t.length) :
    (t.replaceRange start stop piece).codeUnitAt (start + k : Nat) = piece.codeUnitAt k := by
  have hlen : (t.take start).length = start := by
    rw [List.length_take]
    omega
  rw [codeUnitAt, codeUnitAt, replaceRange, Int.toNat_natCast, Int.toNat_natCast,
    List.getD_eq_getElem?_getD, List.getD_eq_getElem?_getD, List.append_assoc,
    List.getElem?_append_right (by omega), hlen, Nat.add_sub_cancel_left,
    List.getElem?_append_left hk]

/-- Behind the range the units stay, moved. -/
theorem codeUnitAt_replaceRange_behind {start stop i : Nat} (hi : stop ≤ i)
    (hstart : start ≤ t.length) :
    (t.replaceRange start stop piece).codeUnitAt (start + piece.length + (i - stop) : Nat) =
      t.codeUnitAt i := by
  have hlen : (t.take start ++ piece).length = start + piece.length := by
    rw [List.length_append, List.length_take]
    omega
  rw [codeUnitAt, codeUnitAt, replaceRange, Int.toNat_natCast, Int.toNat_natCast,
    List.getD_eq_getElem?_getD, List.getD_eq_getElem?_getD,
    List.getElem?_append_right (by omega), hlen, Nat.add_sub_cancel_left, List.getElem?_drop,
    Nat.add_sub_cancel' hi]

end

end Text

/-- `package:characters`: every text is cut into nonempty graphemes. -/
structure Graphemes where
  split : Text → List Text
  flatten_split : ∀ t, (split t).flatten = t
  ne_nil : ∀ t, ∀ g ∈ split t, g ≠ []
  /-- No rule joins two code units below U+0300, except CR LF. -/
  low : ∀ t, ∀ g ∈ split t, ∀ i a b, g[i]? = some a → g[i + 1]? = some b →
    a < 0x300 → b < 0x300 → a = 0x0D ∧ b = 0x0A

namespace Graphemes

variable (gs : Graphemes)

/-- The length of `characters.first`. -/
def firstLength (t : Text) : Nat := ((gs.split t).headD []).length

/-- The ends of the graphemes, one after the other from `start` on. -/
def ends : (start : Nat) → List Text → List Nat
  | _, [] => []
  | start, g :: rest => (start + g.length) :: ends (start + g.length) rest

/-- The grapheme boundaries of a text, in order. -/
def boundaries (t : Text) : List Nat := 0 :: ends 0 (gs.split t)

/-- The grapheme, as start and end, that has `i` strictly inside. -/
def inside (i : Nat) : (start : Nat) → List Text → Option (Nat × Nat)
  | _, [] => none
  | start, g :: rest =>
    if start < i ∧ i < start + g.length then some (start, start + g.length)
    else inside i (start + g.length) rest

/-- `CharacterRange.at`: `none` is the empty range of a boundary. -/
def rangeAt (t : Text) (i : Nat) : Option (Nat × Nat) := inside i 0 (gs.split t)

/-- The graphemes as start and end, one after the other from `start` on. -/
def spansFrom : (start : Nat) → List Text → List (Nat × Nat)
  | _, [] => []
  | start, g :: rest => (start, start + g.length) :: spansFrom (start + g.length) rest

/-- The graphemes of a text as start and end. -/
def spans (t : Text) : List (Nat × Nat) := spansFrom 0 (gs.split t)

/-- No span starts in front of the first. -/
theorem start_le_of_mem_spansFrom {start : Nat} {l : List Text} {s : Nat × Nat}
    (h : s ∈ spansFrom start l) : start ≤ s.1 := by
  induction l generalizing start with
  | nil => cases h
  | cons g rest ih =>
    rcases List.mem_cons.1 h with rfl | h
    · exact Nat.le_refl _
    · exact Nat.le_trans (Nat.le_add_right _ _) (ih h)

/-- No end is in front of the start. -/
theorem start_le_of_mem_ends {start e : Nat} {l : List Text} (h : e ∈ ends start l) :
    start ≤ e := by
  induction l generalizing start with
  | nil => cases h
  | cons g rest ih =>
    rcases List.mem_cons.1 h with rfl | h
    · exact Nat.le_add_right _ _
    · exact Nat.le_trans (Nat.le_add_right _ _) (ih h)

/-- The ends go up. -/
theorem pairwise_ends (start : Nat) (l : List Text) :
    (start :: ends start l).Pairwise (· ≤ ·) := by
  induction l generalizing start with
  | nil => exact List.pairwise_singleton _ _
  | cons g rest ih =>
    refine List.pairwise_cons.2 ⟨fun e he => ?_, ih (start + g.length)⟩
    exact start_le_of_mem_ends (l := g :: rest) he

/-- A place is inside the span that starts before it and ends behind it. -/
theorem inside_eq_some {i start : Nat} {l : List Text} {s : Nat × Nat} :
    inside i start l = some s ↔ s ∈ spansFrom start l ∧ s.1 < i ∧ i < s.2 := by
  induction l generalizing start with
  | nil => simp [inside, spansFrom]
  | cons g rest ih =>
    rw [inside, spansFrom, List.mem_cons]
    by_cases hin : start < i ∧ i < start + g.length
    · rw [if_pos hin, Option.some_inj]
      refine ⟨fun h => h ▸ ⟨Or.inl rfl, hin⟩, ?_⟩
      rintro ⟨rfl | h, hlt, _⟩
      · rfl
      · have := start_le_of_mem_spansFrom h
        omega
    · rw [if_neg hin, ih]
      refine ⟨fun ⟨h, hs⟩ => ⟨Or.inr h, hs⟩, ?_⟩
      rintro ⟨rfl | h, hs⟩
      · exact absurd hs hin
      · exact ⟨h, hs⟩

/-- No span reaches past the text. -/
theorem stop_le_of_mem_spansFrom {start : Nat} {l : List Text} {s : Nat × Nat}
    (h : s ∈ spansFrom start l) : s.2 ≤ start + l.flatten.length := by
  induction l generalizing start with
  | nil => cases h
  | cons g rest ih =>
    rw [List.flatten_cons, List.length_append, ← Nat.add_assoc]
    rcases List.mem_cons.1 h with rfl | h
    · exact Nat.le_add_right _ _
    · exact ih h

/-- A place in front of the spans is inside none. -/
theorem inside_of_le {i start : Nat} {l : List Text} (h : i ≤ start) :
    inside i start l = none := by
  rw [Option.eq_none_iff_forall_not_mem]
  intro s hs
  obtain ⟨hmem, hlt, _⟩ := inside_eq_some.1 hs
  have := start_le_of_mem_spansFrom hmem
  omega

/-- An offset of the text is in no grapheme exactly when it is a boundary. -/
theorem inside_eq_none {i start : Nat} {l : List Text} (hstart : start ≤ i)
    (hstop : i ≤ start + l.flatten.length) :
    inside i start l = none ↔ i ∈ start :: ends start l := by
  induction l generalizing start with
  | nil =>
    rw [List.flatten_nil, List.length_nil] at hstop
    simp only [inside, ends, List.mem_singleton, true_iff]
    omega
  | cons g rest ih =>
    rw [List.flatten_cons, List.length_append] at hstop
    rw [inside, ends, List.mem_cons]
    by_cases hge : start + g.length ≤ i
    · rw [if_neg (by omega), ih hge (by omega)]
      refine ⟨Or.inr, ?_⟩
      rintro (rfl | h)
      · -- Only an empty piece ends where it starts.
        rw [show g.length = 0 by omega, Nat.add_zero]
        exact List.mem_cons_self
      · exact h
    · by_cases hlt : start < i
      · rw [if_pos ⟨hlt, by omega⟩, List.mem_cons]
        have : i ∉ ends (start + g.length) rest := fun h => by
          have := start_le_of_mem_ends h
          omega
        simp only [this, or_false, reduceCtorEq, false_iff, not_or]
        omega
      · rw [if_neg fun h => hlt h.1, inside_of_le (by omega)]
        simp only [true_iff]
        exact Or.inl (by omega)

/-- No end is past the text. -/
theorem le_of_mem_ends {start e : Nat} {l : List Text} (h : e ∈ ends start l) :
    e ≤ start + l.flatten.length := by
  induction l generalizing start with
  | nil => cases h
  | cons g rest ih =>
    rw [List.flatten_cons, List.length_append, ← Nat.add_assoc]
    rcases List.mem_cons.1 h with rfl | h
    · exact Nat.le_add_right _ _
    · exact ih h

theorem le_length_of_mem_boundaries {t : Text} {e : Nat} (h : e ∈ gs.boundaries t) :
    e ≤ t.length := by
  rcases List.mem_cons.1 h with rfl | h
  · exact Nat.zero_le _
  · have := le_of_mem_ends h
    rwa [gs.flatten_split, Nat.zero_add] at this

theorem rangeAt_eq_some {t : Text} {i : Nat} {s : Nat × Nat} :
    gs.rangeAt t i = some s ↔ s ∈ gs.spans t ∧ s.1 < i ∧ i < s.2 := inside_eq_some

theorem stop_le_of_mem_spans {t : Text} {s : Nat × Nat} (h : s ∈ gs.spans t) :
    s.2 ≤ t.length := by
  have := stop_le_of_mem_spansFrom h
  rwa [gs.flatten_split, Nat.zero_add] at this

/-- A place is inside no grapheme where it is a boundary. -/
theorem rangeAt_eq_none {t : Text} {i : Nat} (h : i ≤ t.length) :
    gs.rangeAt t i = none ↔ i ∈ gs.boundaries t :=
  inside_eq_none (Nat.zero_le i) (by rwa [gs.flatten_split, Nat.zero_add])

/-- A grapheme holds the units of the text between its ends. -/
theorem getElem?_of_mem_spansFrom {start : Nat} {l : List Text} {s : Nat × Nat}
    (h : s ∈ spansFrom start l) : ∃ g ∈ l, s.2 = s.1 + g.length ∧
      ∀ k < g.length, l.flatten[s.1 - start + k]? = g[k]? := by
  induction l generalizing start with
  | nil => cases h
  | cons g rest ih =>
    rcases List.mem_cons.1 h with rfl | h
    · refine ⟨g, List.mem_cons_self, rfl, fun k hk => ?_⟩
      rw [List.flatten_cons, Nat.sub_self, Nat.zero_add, List.getElem?_append_left hk]
    · obtain ⟨g', hg', hlen, hunits⟩ := ih h
      have hle := start_le_of_mem_spansFrom h
      refine ⟨g', List.mem_cons_of_mem _ hg', hlen, fun k hk => ?_⟩
      rw [List.flatten_cons, List.getElem?_append_right (by omega), ← hunits k hk]
      congr 1
      omega

/-- Two low code units that a grapheme joins are CR LF. -/
theorem low_of_mem_spans {t : Text} {s : Nat × Nat} {i : Nat} (h : s ∈ gs.spans t)
    (hlt : s.1 < i) (hlt' : i < s.2) (ha : t.getD (i - 1) 0 < 0x300) (hb : t.getD i 0 < 0x300) :
    t.getD (i - 1) 0 = 0x0D ∧ t.getD i 0 = 0x0A := by
  obtain ⟨g, hg, hlen, hunits⟩ := getElem?_of_mem_spansFrom h
  rw [gs.flatten_split, Nat.sub_zero] at hunits
  obtain ⟨k, rfl⟩ := Nat.exists_eq_add_of_lt hlt
  have hk : s.1 + k + 1 - 1 = s.1 + k := rfl
  rw [List.getD_eq_getElem?_getD, hk, hunits k (by omega)] at ha ⊢
  rw [List.getD_eq_getElem?_getD, Nat.add_assoc, hunits (k + 1) (by omega)] at hb ⊢
  rw [List.getElem?_eq_getElem (show k < g.length by omega)] at ha ⊢
  rw [List.getElem?_eq_getElem (show k + 1 < g.length by omega)] at hb ⊢
  exact gs.low t g hg k _ _ (List.getElem?_eq_getElem _) (List.getElem?_eq_getElem _) ha hb

/-- The cut into single code units, right for text without CR LF whose units are all below
    U+0300. -/
def units : Graphemes where
  split t := t.map ([·])
  flatten_split t := by
    induction t with
    | nil => rfl
    | cons u t ih => simpa using ih
  ne_nil t g hg := by
    obtain ⟨u, _, rfl⟩ := List.mem_map.1 hg
    exact List.cons_ne_nil _ _
  low t g hg i a b _ hb := by
    obtain ⟨u, _, rfl⟩ := List.mem_map.1 hg
    simp at hb

end Graphemes

end Flark
