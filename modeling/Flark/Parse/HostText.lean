import Flark.Native.Lines

/-!
# The text that the parsers are given

A source goes to the native side as UTF-8. The web transport checks it (`validateFlarkSourceText`)
and has the browser encode it; the native transport checks and encodes it in one pass
(`_encodeUtf8`), straight into the memory of the parser.

* `encodeUtf8_agrees`: the one pass refuses what the check refuses, in the same words, and writes
  the UTF-8 form of all other sources, within three bytes a unit;
* `encodeInto_units`: what the browser writes is the same.
-/

namespace Flark

/-- `FlarkParseException`. -/
structure ParseException where
  code : Int
  message : String
  deriving DecidableEq, Repr

namespace ParseException

def faultCode : Int := 3

def extractionDeviationCode : Int := 4

def schemaMismatchCode : Int := -2

def invalidHostTextCode : Int := -3

/-- `FlarkParseException.fromCode`. -/
def fromCode (code : Int) : ParseException where
  code := code
  message :=
    if code = 1 then "null argument"
    else if code = 2 then "invalid UTF-8"
    else if code = faultCode then "contained native fault"
    else if code = extractionDeviationCode then
      "render model refused: an extraction deviation, or a source the parser cannot take safely"
    else "unknown parse error " ++ toString code

/-- What is thrown where a surrogate has no other half. -/
def unpaired (i : Nat) : ParseException :=
  ⟨invalidHostTextCode, "unpaired UTF-16 surrogate at offset " ++ toString i⟩

end ParseException

open ParseException Native

namespace HostText

/-! ## The check -/

/-- The loop of `validateFlarkSourceText`: what it throws, if anything. -/
def validateFrom : (i : Nat) → Text → Option ParseException
  | _, [] => none
  | i, u :: rest =>
    if isHighSurrogate u then
      match rest with
      | [] => some (unpaired i)
      | next :: rest =>
        if isLowSurrogate next then validateFrom (i + 2) rest else some (unpaired i)
    else if isLowSurrogate u then some (unpaired i)
    else validateFrom (i + 1) rest

/-- `validateFlarkSourceText`. -/
def validate (source : Text) : Option ParseException := validateFrom 0 source

/-! ## The one pass -/

/-- What is written before what is left. -/
def writes (bytes : List UInt8) (left : List UInt8 × Option ParseException) :
    List UInt8 × Option ParseException :=
  (bytes ++ left.1, left.2)

/-- The loop of `_encodeUtf8`: what it writes, and what it throws then, if anything. -/
def encodeFrom : (i : Nat) → Text → List UInt8 × Option ParseException
  | _, [] => ([], none)
  | i, u :: rest =>
    let unit := u.toNat
    if unit < 0x80 then writes [.ofNat unit] (encodeFrom (i + 1) rest)
    else if unit < 0x800 then
      writes [.ofNat (0xC0 ||| unit >>> 6), .ofNat (0x80 ||| unit &&& 0x3F)]
        (encodeFrom (i + 1) rest)
    else if unit < 0xD800 ∨ 0xDFFF < unit then
      writes [.ofNat (0xE0 ||| unit >>> 12), .ofNat (0x80 ||| unit >>> 6 &&& 0x3F),
        .ofNat (0x80 ||| unit &&& 0x3F)] (encodeFrom (i + 1) rest)
    else
      -- A surrogate: a high one with the low one behind it, or an unpaired one.
      match rest with
      | [] => ([], some (unpaired i))
      | next :: rest =>
        let low := if unit ≤ 0xDBFF then next.toNat else 0
        if low < 0xDC00 ∨ 0xDFFF < low then ([], some (unpaired i))
        else
          let scalar := 0x10000 + (unit - 0xD800) <<< 10 + (low - 0xDC00)
          writes [.ofNat (0xF0 ||| scalar >>> 18), .ofNat (0x80 ||| scalar >>> 12 &&& 0x3F),
            .ofNat (0x80 ||| scalar >>> 6 &&& 0x3F), .ofNat (0x80 ||| scalar &&& 0x3F)]
            (encodeFrom (i + 2) rest)

/-- `_encodeUtf8`. -/
def encodeUtf8 (source : Text) : List UInt8 × Option ParseException := encodeFrom 0 source

/-! ## The encoder of the browser -/

/-- `encodeInto`, as documented: the units read, and the bytes written, of the scalars that fit. What
    is no scalar is written as U+FFFD. -/
def encodeInto : (room : Nat) → Text → Nat × List UInt8
  | _, [] => (0, [])
  | room, [u] =>
    let scalar := if isHighSurrogate u || isLowSurrogate u then '\uFFFD' else Char.ofNat u.toNat
    let bytes := String.utf8EncodeChar scalar
    if bytes.length ≤ room then (1, bytes) else (0, [])
  | room, u :: next :: rest =>
    if isHighSurrogate u && isLowSurrogate next then
      let bytes := String.utf8EncodeChar
        (Char.ofNat (0x10000 + (u.toNat - 0xD800) * 0x400 + (next.toNat - 0xDC00)))
      if bytes.length ≤ room then
        let (read, written) := encodeInto (room - bytes.length) rest
        (read + 2, bytes ++ written)
      else (0, [])
    else
      let scalar := if isHighSurrogate u || isLowSurrogate u then '\uFFFD' else Char.ofNat u.toNat
      let bytes := String.utf8EncodeChar scalar
      if bytes.length ≤ room then
        let (read, written) := encodeInto (room - bytes.length) (next :: rest)
        (read + 1, bytes ++ written)
      else (0, [])

/-! ## Scalars -/

/-- A unit that is one scalar. -/
structure IsUnit (c : Char) (u : UInt16) : Prop where
  units : unitsOf c = [u]
  value : u.toNat = c.toNat
  apart : c.toNat < 0xD800 ∨ 0xDFFF < c.toNat

/-- Two units that are one scalar. -/
structure IsPair (c : Char) (u low : UInt16) : Prop where
  units : unitsOf c = [u, low]
  isHigh : 0xD800 ≤ u.toNat ∧ u.toNat ≤ 0xDBFF
  isLow : 0xDC00 ≤ low.toNat ∧ low.toNat ≤ 0xDFFF
  value : c.toNat = 0x10000 + (u.toNat - 0xD800) * 0x400 + (low.toNat - 0xDC00)

theorem toNat_lt (c : Char) : c.toNat < 0x110000 := by
  rcases c.valid with h | h
  · exact h.trans (by decide)
  · exact h.2

theorem isHighSurrogate_iff {u : UInt16} :
    isHighSurrogate u = true ↔ 0xD800 ≤ u.toNat ∧ u.toNat ≤ 0xDBFF := by
  rw [isHighSurrogate, Bool.and_eq_true, decide_eq_true_eq, decide_eq_true_eq,
    UInt16.le_iff_toNat_le, UInt16.le_iff_toNat_le]
  rfl

theorem isLowSurrogate_iff {u : UInt16} :
    isLowSurrogate u = true ↔ 0xDC00 ≤ u.toNat ∧ u.toNat ≤ 0xDFFF := by
  rw [isLowSurrogate, Bool.and_eq_true, decide_eq_true_eq, decide_eq_true_eq,
    UInt16.le_iff_toNat_le, UInt16.le_iff_toNat_le]
  rfl

/-- A character is one unit, or a pair of surrogates. -/
theorem unitsOf_cases (c : Char) : (∃ u, IsUnit c u) ∨ ∃ u low, IsPair c u low := by
  have hlt := toNat_lt c
  have hunit : ∀ n, n < 2 ^ 16 → (UInt16.ofNat n).toNat = n := fun n hn =>
    UInt16.toNat_ofNat_of_lt' hn
  by_cases hsmall : c.toNat < 0x10000
  · refine Or.inl ⟨.ofNat c.toNat, ?_, hunit _ hsmall, ?_⟩
    · rw [unitsOf, if_pos hsmall, Nat.toUInt16_eq]
    · exact c.valid.imp_right And.left
  · have hhigh := hunit (0xD800 + (c.toNat - 0x10000) / 0x400) (by omega)
    have hlow := hunit (0xDC00 + (c.toNat - 0x10000) % 0x400) (by omega)
    refine Or.inr ⟨.ofNat (0xD800 + (c.toNat - 0x10000) / 0x400),
      .ofNat (0xDC00 + (c.toNat - 0x10000) % 0x400), ?_, ?_, ?_, ?_⟩
    · rw [unitsOf, if_neg hsmall, Nat.toUInt16_eq, Nat.toUInt16_eq]
    · rw [hhigh]
      omega
    · rw [hlow]
      omega
    · rw [hhigh, hlow]
      omega

/-- A unit that is no surrogate is a character. -/
theorem exists_isUnit {u : UInt16} (h : ¬isHighSurrogate u = true) (h' : ¬isLowSurrogate u = true) :
    ∃ c, IsUnit c u := by
  have hlt := u.toNat_lt
  rw [isHighSurrogate_iff] at h
  rw [isLowSurrogate_iff] at h'
  obtain ⟨c, hc⟩ := exists_char (n := u.toNat) (by omega)
  refine ⟨c, ?_, hc.symm, by omega⟩
  rw [unitsOf, if_pos (by omega), hc, Nat.toUInt16_eq, UInt16.ofNat_toNat]

/-- A pair of surrogates is a character. -/
theorem exists_isPair {u low : UInt16} (h : isHighSurrogate u = true)
    (h' : isLowSurrogate low = true) : ∃ c, IsPair c u low := by
  rw [isHighSurrogate_iff] at h
  rw [isLowSurrogate_iff] at h'
  obtain ⟨c, hc⟩ :=
    exists_char (n := 0x10000 + (u.toNat - 0xD800) * 0x400 + (low.toNat - 0xDC00)) (by omega)
  refine ⟨c, ?_, h, h', hc⟩
  have hu : 0xD800 + (c.toNat - 0x10000) / 0x400 = u.toNat := by omega
  have hlow : 0xDC00 + (c.toNat - 0x10000) % 0x400 = low.toNat := by omega
  rw [unitsOf, if_neg (by omega), hu, hlow, Nat.toUInt16_eq, Nat.toUInt16_eq, UInt16.ofNat_toNat,
    UInt16.ofNat_toNat]

/-- A surrogate without its other half. -/
def Unpaired (u : UInt16) (rest : Text) : Prop :=
  isLowSurrogate u = true ∨ isHighSurrogate u = true ∧ ∀ next ∈ rest.head?, isLowSurrogate next = false

/-- A text is the form of scalars, up to the first surrogate without its other half. -/
theorem exists_scalars (source : Text) : ∃ cs, source = units cs ∨
    ∃ u rest, source = units cs ++ u :: rest ∧ Unpaired u rest := by
  have hcons : ∀ (c : Char) (rest : Text), (∃ cs, rest = units cs ∨
      ∃ u rest', rest = units cs ++ u :: rest' ∧ Unpaired u rest') → ∃ cs,
      unitsOf c ++ rest = units cs ∨
        ∃ u rest', unitsOf c ++ rest = units cs ++ u :: rest' ∧ Unpaired u rest' := by
    rintro c rest ⟨cs, rfl | ⟨u, rest', rfl, hunpaired⟩⟩
    · exact ⟨c :: cs, Or.inl (units_cons c cs).symm⟩
    · refine ⟨c :: cs, Or.inr ⟨u, rest', ?_, hunpaired⟩⟩
      rw [units_cons, List.append_assoc]
  suffices h : ∀ _ : Nat, ∃ cs, source = units cs ∨
      ∃ u rest, source = units cs ++ u :: rest ∧ Unpaired u rest from h 0
  intro i
  induction i, source using validateFrom.induct with
  | case1 => exact ⟨[], Or.inl rfl⟩
  | case2 i u hhigh => exact ⟨[], Or.inr ⟨u, [], rfl, Or.inr ⟨hhigh, fun _ => nofun⟩⟩⟩
  | case3 i u hhigh next rest hlow ih =>
    obtain ⟨c, hc⟩ := exists_isPair hhigh hlow
    have hrest := hcons c rest ih
    rw [hc.units] at hrest
    exact hrest
  | case4 i u hhigh next rest hlow =>
    refine ⟨[], Or.inr ⟨u, next :: rest, rfl, Or.inr ⟨hhigh, fun v hv => ?_⟩⟩⟩
    rw [← Option.mem_some_iff.1 hv]
    exact Bool.not_eq_true _ ▸ hlow
  | case5 i u rest hhigh hlow => exact ⟨[], Or.inr ⟨u, rest, rfl, Or.inl hlow⟩⟩
  | case6 i u rest hhigh hlow ih =>
    obtain ⟨c, hc⟩ := exists_isUnit hhigh hlow
    have hrest := hcons c rest ih
    rw [hc.units] at hrest
    exact hrest

/-! ## What the loops do -/

/-- A turn of the validation: a high surrogate takes the unit behind it along. -/
theorem validateFrom_cons (i : Nat) (u : UInt16) (rest : Text) : validateFrom i (u :: rest) =
    if isHighSurrogate u then
      match rest with
      | [] => some (unpaired i)
      | next :: rest =>
        if isLowSurrogate next then validateFrom (i + 2) rest else some (unpaired i)
    else if isLowSurrogate u then some (unpaired i)
    else validateFrom (i + 1) rest := by
  cases rest <;> rfl

/-- Characters are valid. -/
theorem validateFrom_units (i : Nat) (cs : List Char) (rest : Text) :
    validateFrom i (units cs ++ rest) = validateFrom (i + (units cs).length) rest := by
  induction cs generalizing i with
  | nil => rfl
  | cons c cs ih =>
    rw [units_cons, List.append_assoc, List.length_append, ← Nat.add_assoc, ← ih]
    rcases unitsOf_cases c with ⟨u, hunits, hvalue, hapart⟩ | ⟨u, low, hunits, hhigh, hlow, -⟩
    · have hnot : ¬isHighSurrogate u = true ∧ ¬isLowSurrogate u = true := by
        rw [isHighSurrogate_iff, isLowSurrogate_iff]
        omega
      rw [hunits, List.singleton_append, validateFrom_cons, if_neg hnot.1, if_neg hnot.2]
      rfl
    · rw [hunits, List.cons_append, validateFrom_cons, if_pos (isHighSurrogate_iff.2 hhigh)]
      exact if_pos (isLowSurrogate_iff.2 hlow)

/-- A surrogate without its other half is refused where it stands. -/
theorem validateFrom_unpaired (i : Nat) {u : UInt16} {rest : Text} (h : Unpaired u rest) :
    validateFrom i (u :: rest) = some (unpaired i) := by
  rw [validateFrom_cons]
  rcases h with hlow | ⟨hhigh, hnext⟩
  · -- A low surrogate that no high one precedes.
    have hnot : ¬isHighSurrogate u = true := by
      rw [isHighSurrogate_iff]
      rw [isLowSurrogate_iff] at hlow
      omega
    rw [if_neg hnot, if_pos hlow]
  · rw [if_pos hhigh]
    cases rest with
    | nil => rfl
    | cons next rest =>
      dsimp only
      rw [hnext next rfl]
      rfl

/-- A turn of the encoder, by the range that the unit is in. -/
theorem encodeFrom_cons (i : Nat) (u : UInt16) (rest : Text) : encodeFrom i (u :: rest) =
    if u.toNat < 0x80 then writes [.ofNat u.toNat] (encodeFrom (i + 1) rest)
    else if u.toNat < 0x800 then
      writes [.ofNat (0xC0 ||| u.toNat >>> 6), .ofNat (0x80 ||| u.toNat &&& 0x3F)]
        (encodeFrom (i + 1) rest)
    else if u.toNat < 0xD800 ∨ 0xDFFF < u.toNat then
      writes [.ofNat (0xE0 ||| u.toNat >>> 12), .ofNat (0x80 ||| u.toNat >>> 6 &&& 0x3F),
        .ofNat (0x80 ||| u.toNat &&& 0x3F)] (encodeFrom (i + 1) rest)
    else
      match rest with
      | [] => ([], some (unpaired i))
      | next :: rest =>
        let low := if u.toNat ≤ 0xDBFF then next.toNat else 0
        if low < 0xDC00 ∨ 0xDFFF < low then ([], some (unpaired i))
        else
          let scalar := 0x10000 + (u.toNat - 0xD800) <<< 10 + (low - 0xDC00)
          writes [.ofNat (0xF0 ||| scalar >>> 18), .ofNat (0x80 ||| scalar >>> 12 &&& 0x3F),
            .ofNat (0x80 ||| scalar >>> 6 &&& 0x3F), .ofNat (0x80 ||| scalar &&& 0x3F)]
            (encodeFrom (i + 2) rest) := by
  cases rest <;> rfl

theorem or_eq_add {a b : Nat} (k : Nat) (hb : b < 2 ^ k) : 2 ^ k * a ||| b = b + 2 ^ k * a := by
  rw [← Nat.two_pow_add_eq_or_of_lt hb, Nat.add_comm]

/-- A byte that follows the first one of a scalar. -/
theorem following_eq (w : Nat) : 0x80 ||| w &&& 0x3F = w % 64 + 128 := by
  have hand : w &&& 0x3F = w % 64 := Nat.and_two_pow_sub_one_eq_mod w 6
  rw [hand]
  exact @or_eq_add 2 _ 6 (Nat.mod_lt _ (by decide))

/-- The first byte of a scalar. -/
theorem leading_eq {w n : Nat} (a k : Nat) (h : w / 2 ^ n < 2 ^ k) :
    2 ^ k * a ||| w >>> n = w / 2 ^ n + 2 ^ k * a := by
  rw [Nat.shiftRight_eq_div_pow, or_eq_add k h]

/-- A character of one unit is encoded to its bytes. -/
theorem encodeFrom_unit (i : Nat) {c : Char} {u : UInt16} (h : IsUnit c u) (rest : Text) :
    encodeFrom i (u :: rest) = writes (String.utf8EncodeChar c) (encodeFrom (i + 1) rest) := by
  obtain ⟨-, hvalue, hapart⟩ := h
  have hlt := u.toNat_lt
  have hval : c.val.toNat = c.toNat := rfl
  rw [encodeFrom_cons, String.utf8EncodeChar, hval, ← hvalue]
  by_cases h₁ : u.toNat < 0x80
  · rw [if_pos h₁, if_pos (Nat.le_of_lt_succ h₁)]
  have h₁' : ¬u.toNat ≤ 0x7F := fun h => h₁ (Nat.lt_succ_of_le h)
  rw [if_neg h₁, if_neg h₁']
  by_cases h₂ : u.toNat < 0x800
  · have hlead : 0xC0 ||| u.toNat >>> 6 = u.toNat / 64 + 192 := @leading_eq u.toNat 6 3 6 (by omega)
    have hmod : u.toNat / 64 % 32 = u.toNat / 64 := Nat.mod_eq_of_lt (by omega)
    rw [if_pos h₂, if_pos (Nat.le_of_lt_succ h₂), hlead, following_eq, hmod]
  have h₂' : ¬u.toNat ≤ 0x7FF := fun h => h₂ (Nat.lt_succ_of_le h)
  have h₃ : u.toNat < 0xD800 ∨ 0xDFFF < u.toNat := hvalue ▸ hapart
  have hlead : 0xE0 ||| u.toNat >>> 12 = u.toNat / 4096 + 224 :=
    @leading_eq u.toNat 12 14 4 (by omega)
  have hmod : u.toNat / 4096 % 16 = u.toNat / 4096 := Nat.mod_eq_of_lt (by omega)
  rw [if_neg h₂, if_neg h₂', if_pos h₃, if_pos (Nat.le_of_lt_succ hlt), hlead, following_eq,
    following_eq, hmod, Nat.shiftRight_eq_div_pow]

/-- A character of two units is encoded to its bytes. -/
theorem encodeFrom_pair (i : Nat) {c : Char} {u low : UInt16} (h : IsPair c u low) (rest : Text) :
    encodeFrom i (u :: low :: rest) =
      writes (String.utf8EncodeChar c) (encodeFrom (i + 2) rest) := by
  obtain ⟨-, hhigh, hlow, hvalue⟩ := h
  have hval : c.val.toNat = c.toNat := rfl
  have hscalar : 0x10000 + (u.toNat - 0xD800) <<< 10 + (low.toNat - 0xDC00) = c.toNat := by
    rw [hvalue, Nat.shiftLeft_eq]
  have hlt := toNat_lt c
  have hlead : 0xF0 ||| c.toNat >>> 18 = c.toNat / 262144 + 240 :=
    @leading_eq c.toNat 18 30 3 (by omega)
  have hmod : c.toNat / 262144 % 8 = c.toNat / 262144 := Nat.mod_eq_of_lt (by omega)
  rw [encodeFrom_cons, if_neg (by omega), if_neg (by omega), if_neg (by omega)]
  dsimp only
  rw [if_pos hhigh.2, if_neg (by omega), hscalar, hlead, following_eq, following_eq, following_eq,
    String.utf8EncodeChar, hval, if_neg (by omega), if_neg (by omega), if_neg (by omega), hmod,
    Nat.shiftRight_eq_div_pow, Nat.shiftRight_eq_div_pow]

/-- Characters are encoded to their bytes. -/
theorem encodeFrom_units (i : Nat) (cs : List Char) (rest : Text) :
    encodeFrom i (units cs ++ rest) =
      writes (utf8 cs) (encodeFrom (i + (units cs).length) rest) := by
  induction cs generalizing i with
  | nil => rfl
  | cons c cs ih =>
    rw [units_cons, utf8_cons, List.append_assoc, List.length_append, ← Nat.add_assoc]
    have hstep : encodeFrom i (unitsOf c ++ (units cs ++ rest)) = writes (String.utf8EncodeChar c)
        (encodeFrom (i + (unitsOf c).length) (units cs ++ rest)) := by
      rcases unitsOf_cases c with ⟨u, hu⟩ | ⟨u, low, hu⟩
      · rw [hu.units]
        exact encodeFrom_unit i hu _
      · rw [hu.units]
        exact encodeFrom_pair i hu _
    rw [hstep, ih, writes, writes, writes, List.append_assoc]

/-- The encoder stops at a surrogate without its other half. -/
theorem encodeFrom_unpaired (i : Nat) {u : UInt16} {rest : Text} (h : Unpaired u rest) :
    encodeFrom i (u :: rest) = ([], some (unpaired i)) := by
  have hsurrogate : 0xD800 ≤ u.toNat ∧ u.toNat ≤ 0xDFFF := by
    rcases h with hlow | ⟨hhigh, -⟩
    · rw [isLowSurrogate_iff] at hlow
      omega
    · rw [isHighSurrogate_iff] at hhigh
      omega
  rw [encodeFrom_cons, if_neg (by omega), if_neg (by omega), if_neg (by omega)]
  cases rest with
  | nil => rfl
  | cons next rest =>
    dsimp only
    refine if_pos ?_
    split_ifs with hle
    · rcases h with hlow | ⟨-, hnext⟩
      · rw [isLowSurrogate_iff] at hlow
        omega
      · have hnot : ¬isLowSurrogate next = true := by
          rw [hnext next rfl]
          exact Bool.false_ne_true
        rw [isLowSurrogate_iff] at hnot
        omega
    · exact Or.inl (by decide)

/-! ## The two ways -/

/-- A unit takes three bytes at most. -/
theorem length_utf8EncodeChar_le (c : Char) :
    (String.utf8EncodeChar c).length ≤ 3 * (unitsOf c).length := by
  obtain ⟨b, rest, hbytes, h⟩ := utf8EncodeChar_spec c
  rw [hbytes, length_unitsOf, List.length_cons]
  rcases h with ⟨hsmall, rfl, -⟩ | ⟨-, h⟩
  · rw [if_pos (by omega), List.length_nil]
    exact Nat.le_of_ble_eq_true rfl
  · split_ifs <;> omega

theorem length_utf8_le (cs : List Char) : (utf8 cs).length ≤ 3 * (units cs).length := by
  induction cs with
  | nil => exact le_rfl
  | cons c cs ih =>
    rw [utf8_cons, units_cons, List.length_append, List.length_append, Nat.mul_add]
    exact Nat.add_le_add (length_utf8EncodeChar_le c) ih

theorem validate_units (cs : List Char) : validate (units cs) = none := by
  have h := validateFrom_units 0 cs []
  rw [List.append_nil] at h
  exact h

theorem encodeUtf8_units (cs : List Char) : encodeUtf8 (units cs) = (utf8 cs, none) := by
  have h := encodeFrom_units 0 cs []
  rw [List.append_nil] at h
  rw [encodeUtf8, h, writes, encodeFrom, List.append_nil]

/-- What the check lets pass is the form of scalars. -/
theorem exists_units_of_validate {source : Text} (h : validate source = none) :
    ∃ cs, units cs = source := by
  obtain ⟨cs, rfl | ⟨u, rest, rfl, hunpaired⟩⟩ := exists_scalars source
  · exact ⟨cs, rfl⟩
  · rw [validate, validateFrom_units, validateFrom_unpaired _ hunpaired] at h
    cases h

/-- A character of one unit is encoded where there is room. -/
theorem encodeInto_unit {room : Nat} {c : Char} {u : UInt16} (hu : IsUnit c u) (rest : Text)
    (hroom : (String.utf8EncodeChar c).length ≤ room) :
    encodeInto room (u :: rest) =
      ((encodeInto (room - (String.utf8EncodeChar c).length) rest).1 + 1,
        String.utf8EncodeChar c ++ (encodeInto (room - (String.utf8EncodeChar c).length) rest).2) := by
  obtain ⟨-, hvalue, hapart⟩ := hu
  have hhigh : isHighSurrogate u = false := by
    rw [← Bool.not_eq_true, isHighSurrogate_iff]
    omega
  have hlow : isLowSurrogate u = false := by
    rw [← Bool.not_eq_true, isLowSurrogate_iff]
    omega
  have hchar : Char.ofNat u.toNat = c := by rw [hvalue, Char.ofNat_toNat]
  cases rest <;>
    simp only [encodeInto, hhigh, hlow, hchar, Bool.or_self, Bool.false_and, Bool.false_eq_true,
      if_false, if_pos hroom, List.append_nil]

/-- A character of two units is encoded where there is room. -/
theorem encodeInto_pair {room : Nat} {c : Char} {u low : UInt16} (h : IsPair c u low) (rest : Text)
    (hroom : (String.utf8EncodeChar c).length ≤ room) :
    encodeInto room (u :: low :: rest) =
      ((encodeInto (room - (String.utf8EncodeChar c).length) rest).1 + 2,
        String.utf8EncodeChar c ++ (encodeInto (room - (String.utf8EncodeChar c).length) rest).2) := by
  obtain ⟨-, hhigh, hlow, hvalue⟩ := h
  rw [encodeInto, isHighSurrogate_iff.2 hhigh, isLowSurrogate_iff.2 hlow, ← hvalue, Char.ofNat_toNat]
  exact if_pos hroom

/-- Where there is room, the browser reads all of it. -/
theorem encodeInto_units {room : Nat} {cs : List Char} (h : (utf8 cs).length ≤ room) :
    encodeInto room (units cs) = ((units cs).length, utf8 cs) := by
  induction cs generalizing room with
  | nil => rw [units_nil, encodeInto, utf8_nil, List.length_nil]
  | cons c cs ih =>
    rw [utf8_cons, List.length_append] at h
    have hroom : (String.utf8EncodeChar c).length ≤ room := Nat.le_of_add_right_le h
    have hrest := @ih (room - (String.utf8EncodeChar c).length) (Nat.le_sub_of_add_le' h)
    rw [units_cons, utf8_cons, List.length_append]
    rcases unitsOf_cases c with ⟨u, hu⟩ | ⟨u, low, hu⟩
    · rw [hu.units, List.singleton_append, encodeInto_unit hu _ hroom, hrest, Nat.add_comm]
      rfl
    · rw [hu.units, List.cons_append, List.singleton_append, encodeInto_pair hu _ hroom, hrest,
        Nat.add_comm]
      rfl

/-- The one pass refuses what the check refuses, in the same words, and writes at most three bytes a
    unit. The other sources are those that UTF-8 can hold: the one pass writes their form, and the
    browser writes the same where it has three bytes a unit. -/
theorem encodeUtf8_agrees (source : Text) :
    (encodeUtf8 source).2 = validate source ∧
      (encodeUtf8 source).1.length ≤ 3 * source.length ∧
      (validate source = none ↔ ∃ bytes, utf16OfUtf8 bytes = some source) ∧
      (validate source = none → utf16OfUtf8 (encodeUtf8 source).1 = some source ∧
        ∀ room, 3 * source.length ≤ room →
          encodeInto room source = (source.length, (encodeUtf8 source).1)) := by
  refine ⟨?_, ?_, ⟨fun h => ?_, fun h => ?_⟩, fun h => ?_⟩
  · obtain ⟨cs, rfl | ⟨u, rest, rfl, hunpaired⟩⟩ := exists_scalars source
    · rw [encodeUtf8_units, validate_units]
    · rw [encodeUtf8, encodeFrom_units, encodeFrom_unpaired _ hunpaired, validate,
        validateFrom_units, validateFrom_unpaired _ hunpaired]
      rfl
  · obtain ⟨cs, rfl | ⟨u, rest, rfl, hunpaired⟩⟩ := exists_scalars source
    · rw [encodeUtf8_units]
      exact length_utf8_le cs
    · rw [encodeUtf8, encodeFrom_units, encodeFrom_unpaired _ hunpaired, writes, List.append_nil,
        List.length_append, Nat.mul_add]
      exact (length_utf8_le cs).trans (Nat.le_add_right _ _)
  · obtain ⟨cs, rfl⟩ := exists_units_of_validate h
    exact ⟨utf8 cs, utf16OfUtf8_eq_some.2 ⟨cs, rfl, rfl⟩⟩
  · obtain ⟨bytes, hbytes⟩ := h
    obtain ⟨cs, -, rfl⟩ := utf16OfUtf8_eq_some.1 hbytes
    exact validate_units cs
  · obtain ⟨cs, rfl⟩ := exists_units_of_validate h
    rw [encodeUtf8_units]
    exact ⟨utf16OfUtf8_eq_some.2 ⟨cs, rfl, rfl⟩,
      fun room hroom => encodeInto_units ((length_utf8_le cs).trans hroom)⟩

end HostText

end Flark
