import Flark.Native.Lines

/-!
# Strings and their byte offsets

A `str` of the native side is its scalars here, and an offset into it counts bytes of its UTF-8
form. Slicing off a scalar boundary panics, so a slice is an `Option`.

* `Str.sliceFrom_eq_some`, `Str.slice_eq_some`: what is sliced is what a split of the scalars
  leaves;
* `Str.exists_of_ascii`: an offset that holds an ASCII byte is on a boundary.
-/

namespace Flark.Native

/-- A `str`: its scalars. -/
abbrev Str := List Char

namespace Str

/-- `s.len()`: the bytes of `s`. -/
def len (s : Str) : Nat := (utf8 s).length

/-- `&s[i..]`. -/
def sliceFrom : (s : Str) → (i : Nat) → Option Str
  | s, 0 => some s
  | [], _ + 1 => none
  | c :: s, i + 1 =>
    if c.utf8Size ≤ i + 1 then sliceFrom s (i + 1 - c.utf8Size) else none

/-- `&s[..i]`. -/
def sliceTo : (s : Str) → (i : Nat) → Option Str
  | _, 0 => some []
  | [], _ + 1 => none
  | c :: s, i + 1 =>
    if c.utf8Size ≤ i + 1 then (sliceTo s (i + 1 - c.utf8Size)).map (c :: ·) else none

/-- `&s[i..j]`. -/
def slice (s : Str) (i j : Nat) : Option Str :=
  if i ≤ j then (sliceFrom s i).bind fun t => sliceTo t (j - i) else none

/-- `s.is_char_boundary(i)`. -/
def isCharBoundary (s : Str) (i : Nat) : Bool := (sliceFrom s i).isSome

/-! ## Lengths -/

@[simp] theorem len_nil : len [] = 0 := rfl

@[simp] theorem len_cons (c : Char) (s : Str) : len (c :: s) = c.utf8Size + len s := by
  rw [len, utf8_cons, List.length_append, String.length_utf8EncodeChar, len]

theorem utf8_append (s t : Str) : utf8 (s ++ t) = utf8 s ++ utf8 t := List.flatMap_append

@[simp] theorem len_append (s t : Str) : len (s ++ t) = len s + len t := by
  rw [len, utf8_append, List.length_append, len, len]

theorem length_utf8 (s : Str) : (utf8 s).length = len s := rfl

theorem len_eq_zero {s : Str} : len s = 0 ↔ s = [] := by
  cases s with
  | nil => simp
  | cons c s =>
    have := c.utf8Size_pos
    simp only [len_cons, reduceCtorEq, iff_false]
    omega

theorem len_pos {s : Str} : 0 < len s ↔ s ≠ [] := by
  rw [Nat.pos_iff_ne_zero, Ne, len_eq_zero]

/-- Two strings of the same bytes are the same. -/
theorem utf8_inj {s t : Str} : utf8 s = utf8 t ↔ s = t := by
  refine ⟨fun h => ?_, fun h => h ▸ rfl⟩
  have hst : s <+: t := prefix_of_utf8_prefix (h ▸ List.prefix_rfl)
  have hts : t <+: s := prefix_of_utf8_prefix (h ▸ List.prefix_rfl)
  exact hst.eq_of_length (le_antisymm hst.length_le hts.length_le)

/-- Two splits of a string at one offset are the same. -/
theorem append_inj {p p' s s' : Str} (h : p ++ s = p' ++ s') (hlen : len p = len p') :
    p = p' ∧ s = s' := by
  have hbytes := congrArg utf8 h
  rw [utf8_append, utf8_append] at hbytes
  obtain ⟨hp, hs⟩ := List.append_inj hbytes hlen
  exact ⟨utf8_inj.1 hp, utf8_inj.1 hs⟩

/-- Of two splits of a string, the later one splits what is behind the earlier one. -/
theorem append_eq_append {p p' s s' : Str} (h : p ++ s = p' ++ s') (hle : len p ≤ len p') :
    ∃ m, p' = p ++ m ∧ s = m ++ s' := by
  have hbytes := congrArg utf8 h
  rw [utf8_append, utf8_append] at hbytes
  obtain ⟨m, rfl⟩ : p <+: p' := prefix_of_utf8_prefix
    (List.prefix_of_prefix_length_le ⟨utf8 s, hbytes⟩ ⟨utf8 s', rfl⟩ hle)
  rw [List.append_assoc] at h
  exact ⟨m, rfl, (append_inj h rfl).2⟩

/-! ## Slices -/

theorem sliceFrom_eq_some {s t : Str} {i : Nat} :
    sliceFrom s i = some t ↔ ∃ p, s = p ++ t ∧ len p = i := by
  induction s, i using sliceFrom.induct with
  | case1 s =>
    rw [sliceFrom, Option.some_inj]
    constructor
    · rintro rfl
      exact ⟨[], rfl, rfl⟩
    · rintro ⟨p, rfl, hp⟩
      rw [len_eq_zero.1 hp, List.nil_append]
  | case2 i =>
    rw [sliceFrom]
    refine ⟨(fun h => by cases h), ?_⟩
    rintro ⟨p, hp, hlen⟩
    rw [(List.append_eq_nil_iff.1 hp.symm).1, len_nil] at hlen
    omega
  | case3 c s i hc ih =>
    rw [sliceFrom, if_pos hc, ih]
    constructor
    · rintro ⟨p, rfl, hlen⟩
      refine ⟨c :: p, rfl, ?_⟩
      rw [len_cons, hlen]
      exact Nat.add_sub_cancel' hc
    · rintro ⟨_ | ⟨d, p⟩, hp, hlen⟩
      · rw [len_nil] at hlen
        omega
      · rw [List.cons_append, List.cons.injEq] at hp
        obtain ⟨rfl, rfl⟩ := hp
        rw [len_cons] at hlen
        exact ⟨p, rfl, by omega⟩
  | case4 c s i hc =>
    rw [sliceFrom, if_neg hc]
    refine ⟨(fun h => by cases h), ?_⟩
    rintro ⟨_ | ⟨d, p⟩, hp, hlen⟩
    · rw [len_nil] at hlen
      omega
    · rw [List.cons_append, List.cons.injEq] at hp
      rw [len_cons, ← hp.1] at hlen
      omega

theorem sliceTo_eq_some {s p : Str} {i : Nat} :
    sliceTo s i = some p ↔ ∃ t, s = p ++ t ∧ len p = i := by
  -- Along the characters of the string. There is no prefix of a length inside one of them.
  induction s, i using sliceTo.induct generalizing p with
  | case1 s =>
    rw [sliceTo, Option.some_inj]
    constructor
    · rintro rfl
      exact ⟨s, rfl, rfl⟩
    · rintro ⟨t, rfl, hp⟩
      exact (len_eq_zero.1 hp).symm
  | case2 i =>
    rw [sliceTo]
    refine ⟨(fun h => by cases h), ?_⟩
    rintro ⟨t, hp, hlen⟩
    rw [(List.append_eq_nil_iff.1 hp.symm).1, len_nil] at hlen
    omega
  | case3 c s i hc ih =>
    rw [sliceTo, if_pos hc, Option.map_eq_some_iff]
    constructor
    · rintro ⟨q, hq, rfl⟩
      obtain ⟨t, rfl, hlen⟩ := ih.1 hq
      refine ⟨t, rfl, ?_⟩
      rw [len_cons]
      omega
    · rintro ⟨t, hp, hlen⟩
      cases p with
      | nil =>
        rw [len_nil] at hlen
        omega
      | cons d q =>
        rw [List.cons_append, List.cons.injEq] at hp
        obtain ⟨rfl, rfl⟩ := hp
        rw [len_cons] at hlen
        exact ⟨q, ih.2 ⟨t, rfl, by omega⟩, rfl⟩
  | case4 c s i hc =>
    rw [sliceTo, if_neg hc]
    refine ⟨(fun h => by cases h), ?_⟩
    rintro ⟨t, hp, hlen⟩
    cases p with
    | nil =>
      rw [len_nil] at hlen
      omega
    | cons d q =>
      rw [List.cons_append, List.cons.injEq] at hp
      rw [len_cons, ← hp.1] at hlen
      omega

theorem slice_eq_some {s t : Str} {i j : Nat} :
    slice s i j = some t ↔ ∃ p q, s = p ++ (t ++ q) ∧ len p = i ∧ i + len t = j := by
  rw [slice]
  split
  · next hij =>
    rw [Option.bind_eq_some_iff]
    constructor
    · rintro ⟨u, hu, ht⟩
      obtain ⟨p, rfl, hp⟩ := sliceFrom_eq_some.1 hu
      obtain ⟨q, rfl, ht⟩ := sliceTo_eq_some.1 ht
      exact ⟨p, q, rfl, hp, by omega⟩
    · rintro ⟨p, q, rfl, hp, ht⟩
      exact ⟨t ++ q, sliceFrom_eq_some.2 ⟨p, rfl, hp⟩, sliceTo_eq_some.2 ⟨q, rfl, by omega⟩⟩
  · next hij =>
    refine ⟨(fun h => by cases h), ?_⟩
    rintro ⟨p, q, -, -, ht⟩
    omega

@[simp] theorem sliceFrom_append (p t : Str) : sliceFrom (p ++ t) (len p) = some t :=
  sliceFrom_eq_some.2 ⟨p, rfl, rfl⟩

theorem slice_append (p t q : Str) : slice (p ++ (t ++ q)) (len p) (len p + len t) = some t :=
  slice_eq_some.2 ⟨p, q, rfl, rfl, rfl⟩

/-! ## Boundaries -/

theorem isCharBoundary_iff {s : Str} {i : Nat} :
    isCharBoundary s i = true ↔ ∃ p t, s = p ++ t ∧ len p = i := by
  rw [isCharBoundary, Option.isSome_iff_exists]
  constructor
  · rintro ⟨t, ht⟩
    obtain ⟨p, h⟩ := sliceFrom_eq_some.1 ht
    exact ⟨p, t, h⟩
  · rintro ⟨p, t, h⟩
    exact ⟨t, sliceFrom_eq_some.2 ⟨p, h⟩⟩

theorem le_len_of_isCharBoundary {s : Str} {i : Nat} (h : isCharBoundary s i = true) : i ≤ len s := by
  obtain ⟨p, t, rfl, rfl⟩ := isCharBoundary_iff.1 h
  rw [len_append]
  exact Nat.le_add_right _ _

/-- Between two boundaries there is a slice. -/
theorem exists_slice {s : Str} {i j : Nat} (hi : isCharBoundary s i = true)
    (hj : isCharBoundary s j = true) (hij : i ≤ j) : ∃ t, slice s i j = some t := by
  obtain ⟨p, t, rfl, rfl⟩ := isCharBoundary_iff.1 hi
  obtain ⟨p', t', h, rfl⟩ := isCharBoundary_iff.1 hj
  obtain ⟨m, rfl, rfl⟩ := append_eq_append h hij
  exact ⟨m, slice_eq_some.2 ⟨p, t', rfl, rfl, (len_append p m).symm⟩⟩

/-- A slice lies between boundaries. -/
theorem isCharBoundary_of_slice {s t : Str} {i j : Nat} (h : slice s i j = some t) :
    isCharBoundary s i = true ∧ isCharBoundary s j = true ∧ i ≤ j := by
  obtain ⟨p, q, rfl, hp, ht⟩ := slice_eq_some.1 h
  refine ⟨isCharBoundary_iff.2 ⟨p, t ++ q, rfl, hp⟩,
    isCharBoundary_iff.2 ⟨p ++ t, q, (List.append_assoc _ _ _).symm, ?_⟩, by omega⟩
  rw [len_append]
  omega

@[simp] theorem isCharBoundary_zero (s : Str) : isCharBoundary s 0 = true :=
  isCharBoundary_iff.2 ⟨[], s, rfl, rfl⟩

theorem exists_sliceFrom {s : Str} {i : Nat} (h : isCharBoundary s i = true) :
    ∃ t, sliceFrom s i = some t :=
  Option.isSome_iff_exists.1 h

/-- The end of what is at a boundary is a boundary. -/
theorem isCharBoundary_add {s p t : Str} {i : Nat} (h : sliceFrom s i = some (p ++ t)) :
    isCharBoundary s (i + len p) = true := by
  obtain ⟨q, rfl, rfl⟩ := sliceFrom_eq_some.1 h
  exact isCharBoundary_iff.2 ⟨q ++ p, t, (List.append_assoc _ _ _).symm, len_append _ _⟩

/-- An ASCII byte is a scalar of its own. -/
theorem exists_of_ascii {s : Str} {i : Nat} {b : UInt8} (h : (utf8 s)[i]? = some b)
    (hb : b.toNat < 0x80) :
    ∃ p c t, s = p ++ c :: t ∧ len p = i ∧ String.utf8EncodeChar c = [b] := by
  induction s generalizing i with
  | nil => simp at h
  | cons c s ih =>
    rw [utf8_cons] at h
    obtain ⟨b', rest, hbytes, ⟨-, rfl, hb'⟩ | ⟨hwide, -⟩⟩ := utf8EncodeChar_spec c
    · rw [hbytes, List.singleton_append] at h
      cases i with
      | zero =>
        obtain rfl := Option.some_inj.1 h
        exact ⟨[], c, s, rfl, rfl, hbytes⟩
      | succ i =>
        obtain ⟨p, d, t, rfl, rfl, hd⟩ := ih (List.getElem?_cons_succ ▸ h)
        refine ⟨c :: p, d, t, rfl, ?_, hd⟩
        rw [len_cons, ← String.length_utf8EncodeChar, hbytes, List.length_singleton, Nat.add_comm]
    · by_cases hi : i < (String.utf8EncodeChar c).length
      · rw [List.getElem?_append_left hi] at h
        have := hwide b (hbytes ▸ List.mem_of_getElem? h)
        omega
      · rw [List.getElem?_append_right (not_lt.1 hi)] at h
        obtain ⟨p, d, t, rfl, hp, hd⟩ := ih h
        refine ⟨c :: p, d, t, rfl, ?_, hd⟩
        rw [len_cons, ← String.length_utf8EncodeChar, hp]
        omega

/-- The first byte of a scalar is an ASCII one where the scalar is. -/
theorem head_eq_iff {c : Char} {b : UInt8} {more : List UInt8}
    (h : String.utf8EncodeChar c = b :: more) (d : Char) (hd : d.toNat < 0x80) :
    b = UInt8.ofNat d.toNat ↔ c = d := by
  have hbyte : (UInt8.ofNat d.toNat).toNat = d.toNat :=
    UInt8.toNat_ofNat_of_lt' (by rw [UInt8.size]; omega)
  obtain ⟨b', more', h', ⟨-, -, hb⟩ | ⟨hhigh, hrange⟩⟩ := utf8EncodeChar_spec c
  all_goals
    obtain ⟨rfl, rfl⟩ := List.cons.inj (h.symm.trans h')
    rw [← UInt8.toNat_inj, hbyte, ← Char.toNat_inj]
  · rw [hb]
  · have := hhigh b List.mem_cons_self
    omega

/-- The bytes from a boundary on are those of what is sliced there. -/
theorem drop_utf8 (p t : Str) : (utf8 (p ++ t)).drop (len p) = utf8 t := by
  rw [utf8_append, len, List.drop_left]

end Str

end Flark.Native
