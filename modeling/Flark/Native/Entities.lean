import Flark.Lib.Answers
import Flark.Lib.Scan
import Flark.Native.Str

/-!
# Entity references

The length of the reference at the start of a string (`entity_len`), and two ways to tell whether
a source range cuts through one (`text_pieces.rs`).

* `entityLen_spec`: a reference is `&`, bytes that are neither `&` nor `;`, and `;`, at most
  `MAX_ENTITY_LEN` of them; nothing past its end matters (`entityLen_congr`);
* `Inside.unique`: references never overlap;
* `cutsEntity`: the test that searches back from both ends of the range;
* `EntityCover`: the test that one pass over a span answers, which is the same
  (`EntityCover.cuts_eq_cutsEntity`).
-/

namespace Flark.Native

/-- `u8::is_ascii_digit`. -/
def isAsciiDigit (b : UInt8) : Bool := 0x30 ≤ b && b ≤ 0x39

/-- `u8::is_ascii_hexdigit`. -/
def isAsciiHexdigit (b : UInt8) : Bool :=
  isAsciiDigit b || (0x41 ≤ b && b ≤ 0x46) || (0x61 ≤ b && b ≤ 0x66)

/-- `u8::is_ascii_alphanumeric`. -/
def isAsciiAlphanumeric (b : UInt8) : Bool :=
  isAsciiDigit b || (0x41 ≤ b && b ≤ 0x5A) || (0x61 ≤ b && b ≤ 0x7A)

/-- `MAX_ENTITY_LEN`: `&`, a 32-byte name and `;`. -/
def maxEntityLen : Nat := 34

/-- The end of a reference whose body is the bytes from `start` on that `accept` holds of: one to
    `most` of them, before `;`. -/
def bodyEnd (b : List UInt8) (accept : UInt8 → Bool) (most start : Nat) : Option Nat :=
  let i := Scan.upTo (fun i => b[i]?.any accept) most start
  if i = start then none else if b[i]? = some 0x3B then some (i + 1) else none

/-- `entity_len`: the length of the reference at the start of `s`. -/
def entityLen (s : Str) : Option Nat :=
  let b := utf8 s
  if b[0]? ≠ some 0x26 then none
  else if b[1]? = some 0x23 then
    let hex := b[2]? = some 0x78 || b[2]? = some 0x58
    bodyEnd b (fun c => isAsciiDigit c || (hex && isAsciiHexdigit c)) 8 (if hex then 3 else 2)
  else bodyEnd b isAsciiAlphanumeric 32 1

/-! ## What a reference is -/

/-- A byte of the body of a reference. -/
def IsBody (c : UInt8) : Prop := c.toNat < 0x80 ∧ c ≠ 0x26 ∧ c ≠ 0x3B

instance (c : UInt8) : Decidable (IsBody c) := inferInstanceAs (Decidable (_ ∧ _))

theorem isBody_of_isAsciiDigit {c : UInt8} (h : isAsciiDigit c = true) : IsBody c := by
  simp only [isAsciiDigit, Bool.and_eq_true, decide_eq_true_eq, UInt8.le_iff_toNat_le,
    UInt8.reduceToNat] at h
  refine ⟨by omega, ?_, ?_⟩ <;>
  · rintro rfl
    simp at h

theorem isBody_of_isAsciiAlphanumeric {c : UInt8} (h : isAsciiAlphanumeric c = true) :
    IsBody c := by
  simp only [isAsciiAlphanumeric, Bool.or_eq_true] at h
  rcases h with (h | h) | h
  · exact isBody_of_isAsciiDigit h
  all_goals
    simp only [Bool.and_eq_true, decide_eq_true_eq, UInt8.le_iff_toNat_le, UInt8.reduceToNat] at h
    refine ⟨by omega, ?_, ?_⟩ <;>
    · rintro rfl
      simp at h

theorem isBody_of_isAsciiHexdigit {c : UInt8} (h : isAsciiHexdigit c = true) : IsBody c := by
  refine isBody_of_isAsciiAlphanumeric ?_
  simp only [isAsciiHexdigit, isAsciiAlphanumeric, isAsciiDigit, Bool.or_eq_true,
    Bool.and_eq_true, decide_eq_true_eq, UInt8.le_iff_toNat_le, UInt8.reduceToNat] at h ⊢
  omega

variable {b b' : List UInt8} {accept : UInt8 → Bool} {most start l : Nat}

theorem bodyEnd_eq_some : bodyEnd b accept most start = some l ↔
    ∃ i, Scan.upTo (fun i => b[i]?.any accept) most start = i ∧ i ≠ start ∧
      b[i]? = some 0x3B ∧ l = i + 1 := by
  rw [bodyEnd]
  split_ifs with h₁ h₂
  · simp [h₁]
  · simp [h₁, h₂, eq_comm]
  · simp [h₂]

theorem bodyEnd_spec (haccept : ∀ c, accept c = true → IsBody c)
    (h : bodyEnd b accept most start = some l) :
    start + 2 ≤ l ∧ l ≤ start + most + 1 ∧ b[l - 1]? = some 0x3B ∧
      ∀ k, start ≤ k → k < l - 1 → ∃ c, b[k]? = some c ∧ IsBody c := by
  obtain ⟨i, hi, hne, hclose, rfl⟩ := bodyEnd_eq_some.1 h
  have hle := hi ▸ Scan.le_upTo (fun i => b[i]?.any accept) most start
  have hge := hi ▸ Scan.upTo_le (fun i => b[i]?.any accept) most start
  refine ⟨by omega, by omega, hclose, fun k hk hlt => ?_⟩
  obtain ⟨c, hc, hbody⟩ := (Option.any_eq_true _ _).1 (Scan.holds hk (hi ▸ hlt))
  exact ⟨c, hc, haccept c hbody⟩

/-- Bytes past the end of a reference do not matter. -/
theorem bodyEnd_congr (haccept : accept 0x3B = false)
    (h : bodyEnd b accept most start = some l) (hb : ∀ k < l, b'[k]? = b[k]?) :
    bodyEnd b' accept most start = some l := by
  obtain ⟨i, rfl, hne, hclose, rfl⟩ := bodyEnd_eq_some.1 h
  have hscan : Scan.upTo (fun i => b'[i]?.any accept) most start =
      Scan.upTo (fun i => b[i]?.any accept) most start := by
    refine Scan.upTo_congr (fun k _ hk => ?_) fun _ => ?_
    · rw [hb k (by omega)]
    · rw [hb _ (Nat.lt_succ_self _), hclose]
      exact haccept
  exact bodyEnd_eq_some.2 ⟨_, hscan, hne, by rw [hb _ (Nat.lt_succ_self _), hclose], rfl⟩

/-- A reference is `&`, at least one byte of a body, and `;`. -/
structure IsReference (b : List UInt8) (l : Nat) : Prop where
  opening : b[0]? = some 0x26
  closing : b[l - 1]? = some 0x3B
  body : ∀ k, 0 < k → k < l - 1 → ∃ c, b[k]? = some c ∧ IsBody c
  three_le : 3 ≤ l
  le_max : l ≤ maxEntityLen

theorem entityLen_spec {s : Str} (h : entityLen s = some l) : IsReference (utf8 s) l := by
  simp only [entityLen, ne_eq, ite_not] at h
  split at h
  · next hopen =>
    split at h
    · next hnumber =>
      have haccept : ∀ c, (isAsciiDigit c || (((utf8 s)[2]? = some 0x78 || (utf8 s)[2]? = some 0x58)
          && isAsciiHexdigit c)) = true → IsBody c := fun c hc => by
        rcases Bool.or_eq_true_iff.1 hc with hc | hc
        · exact isBody_of_isAsciiDigit hc
        · exact isBody_of_isAsciiHexdigit (Bool.and_eq_true_iff.1 hc).2
      obtain ⟨hlow, hhigh, hclose, hbody⟩ := bodyEnd_spec haccept h
      refine ⟨hopen, hclose, fun k hk hlt => ?_, ?_, ?_⟩
      · rcases Nat.lt_or_ge k 2 with hk2 | hk2
        · obtain rfl : k = 1 := by omega
          exact ⟨_, hnumber, by decide⟩
        · split at hbody
          · next hhex =>
            rcases Nat.lt_or_ge k 3 with hk3 | hk3
            · obtain rfl : k = 2 := by omega
              rcases Bool.or_eq_true_iff.1 hhex with hhex | hhex
              · exact ⟨_, of_decide_eq_true hhex, by decide⟩
              · exact ⟨_, of_decide_eq_true hhex, by decide⟩
            · exact hbody k hk3 hlt
          · exact hbody k hk2 hlt
      · split at hlow <;> omega
      · rw [maxEntityLen]
        split at hhigh <;> omega
    · obtain ⟨hlow, hhigh, hclose, hbody⟩ := bodyEnd_spec
        (fun c => isBody_of_isAsciiAlphanumeric) h
      exact ⟨hopen, hclose, hbody, hlow, hhigh⟩
  · cases h

/-- Nothing past the end of a reference matters. -/
theorem entityLen_congr {s t : Str} (h : entityLen s = some l)
    (hb : ∀ k < l, (utf8 t)[k]? = (utf8 s)[k]?) : entityLen t = some l := by
  have hlen := (entityLen_spec h).three_le
  simp only [entityLen, ne_eq, ite_not, hb 0 (by omega), hb 1 (by omega), hb 2 (by omega)] at h ⊢
  split at h
  · next hopen =>
    rw [if_pos hopen]
    split at h
    · next hnumber =>
      rw [if_pos hnumber]
      refine bodyEnd_congr ?_ h hb
      rw [show isAsciiDigit 0x3B = false by decide, show isAsciiHexdigit 0x3B = false by decide,
        Bool.and_false, Bool.or_self]
    · next hnumber =>
      rw [if_neg hnumber]
      exact bodyEnd_congr (by decide) h hb
  · cases h

/-- A reference is a part of its string: its end is a boundary. -/
theorem exists_reference {s : Str} (h : entityLen s = some l) :
    ∃ p t, s = p ++ t ∧ Str.len p = l := by
  have hclose := (entityLen_spec h).closing
  have hlow := (entityLen_spec h).three_le
  obtain ⟨p, c, t, rfl, hp, hc⟩ := Str.exists_of_ascii hclose (by decide)
  refine ⟨p ++ [c], t, by simp, ?_⟩
  rw [Str.len_append, Str.len_cons, Str.len_nil, ← String.length_utf8EncodeChar, hc, hp,
    List.length_singleton]
  omega

/-! ## References in a source -/

/-- A reference of `l` bytes starts at the byte `a`. -/
def Refers (src : Str) (a l : Nat) : Prop := ∃ t, Str.sliceFrom src a = some t ∧ entityLen t = some l

/-- The byte `x` lies strictly inside the reference at `a`. -/
def Inside (src : Str) (a x : Nat) : Prop := ∃ l, Refers src a l ∧ a < x ∧ x < a + l

variable {src : Str} {a x : Nat}

theorem Refers.isReference (h : Refers src a l) : IsReference ((utf8 src).drop a) l := by
  obtain ⟨t, ht, hl⟩ := h
  obtain ⟨p, rfl, rfl⟩ := Str.sliceFrom_eq_some.1 ht
  rw [Str.drop_utf8]
  exact entityLen_spec hl

theorem Refers.length_le (h : Refers src a l) : a + l ≤ Str.len src := by
  have hclose := h.isReference.closing
  have hlow := h.isReference.three_le
  rw [List.getElem?_drop] at hclose
  have := (List.getElem?_eq_some_iff.1 hclose).1
  rw [Str.length_utf8] at this
  omega

theorem Refers.opening (h : Refers src a l) : (utf8 src)[a]? = some 0x26 := by
  have hopen := h.isReference.opening
  rwa [List.getElem?_drop, Nat.add_zero] at hopen

/-- No byte of a reference past its first is `&`. -/
theorem Refers.not_opening (h : Refers src a l) (hlt : a < x) (hx : x < a + l) :
    (utf8 src)[x]? ≠ some 0x26 := by
  obtain ⟨k, rfl⟩ := Nat.exists_eq_add_of_lt hlt
  intro hopen
  rw [Nat.add_assoc, ← List.getElem?_drop] at hopen
  by_cases hk : k + 1 = l - 1
  · have hclose := h.isReference.closing
    rw [← hk, hopen] at hclose
    exact absurd (Option.some_inj.1 hclose) (by decide)
  · obtain ⟨c, hc, hbody⟩ := h.isReference.body (k + 1) (Nat.succ_pos k) (by omega)
    rw [hopen] at hc
    exact hbody.2.1 (Option.some_inj.1 hc).symm

/-- References never overlap: none holds a `&` past its first byte. -/
theorem Inside.unique {a' : Nat} (h : Inside src a x) (h' : Inside src a' x) : a = a' := by
  obtain ⟨l, href, hlt, hx⟩ := h
  obtain ⟨l', href', hlt', hx'⟩ := h'
  rcases Nat.lt_trichotomy a a' with haa | haa | haa
  · exact absurd href'.opening (href.not_opening haa (by omega))
  · exact haa
  · exact absurd href.opening (href'.not_opening haa (by omega))

/-- A reference that reaches past an offset starts at most its longest length before it. -/
theorem Inside.lt_add (h : Inside src a x) : a < x ∧ x < a + maxEntityLen := by
  obtain ⟨l, href, hlt, hx⟩ := h
  have := href.isReference.le_max
  omega

/-! ## The direct test -/

/-- `reaches`: whether the reference at `a` ends after `past`. -/
def reaches (src : Str) (a past : Nat) : Option Bool := do
  if (← (utf8 src)[a]?) = 0x26 then
    return (entityLen (← Str.sliceFrom src a)).any fun l => past < a + l
  else return false

/-- `escaped`: whether an odd number of backslashes stands before `a`. -/
def escaped (src : Str) (a : Nat) : Option Bool :=
  if a ≤ Str.len src then
    some (decide ((((utf8 src).take a).reverse.takeWhile (· = 0x5C)).length % 2 = 1))
  else none

/-- `cuts_entity`: whether the source range `[q, r)` cuts through an entity reference. -/
def cutsEntity (src : Str) (q r : Nat) : Option Bool := do
  let first := max (r - maxEntityLen) q
  if ← (List.range' first (r - first)).anyM fun a => do
      if ← reaches src a r then
        if a = q ∧ r = a + 1 then return !(← escaped src a) else return true
      else return false
  then return true
  else
    let first := q - maxEntityLen
    (List.range' first (q - first)).anyM fun a => do
      if ← reaches src a q then return !(← escaped src a) else return false

/-- The backslashes before `a` escape what stands there. -/
def IsEscaped (src : Str) (a : Nat) : Prop := escaped src a = some true

/-- The range `[q, r)` ends inside a reference that it does not begin before, other than the
    escaped `&` that it is, or begins inside one that is not escaped. -/
def Cuts (src : Str) (q r : Nat) : Prop :=
  (∃ a, q ≤ a ∧ Inside src a r ∧ ¬(a = q ∧ r = a + 1 ∧ IsEscaped src a)) ∨
    ∃ a, Inside src a q ∧ ¬IsEscaped src a

theorem answers_escaped (h : a ≤ Str.len src) : Answers (escaped src a) (IsEscaped src a) := by
  rw [IsEscaped, escaped, if_pos h]
  exact Answers.of_iff Option.some_inj.symm

theorem answers_reaches (ha : a < x) (hx : x ≤ Str.len src) :
    Answers (reaches src a x) (Inside src a x) := by
  have hlt : a < (utf8 src).length := by
    rw [Str.length_utf8]
    omega
  rw [reaches, List.getElem?_eq_getElem hlt]
  by_cases hopen : (utf8 src)[a] = 0x26
  · obtain ⟨p, c, t, rfl, rfl, -⟩ := Str.exists_of_ascii (List.getElem?_eq_getElem hlt)
      (by rw [hopen]; decide)
    simp only [Option.bind_eq_bind, Option.bind_some, if_pos hopen, Str.sliceFrom_append,
      Option.pure_def]
    refine Answers.of_iff ?_
    rw [Option.any_eq_true]
    constructor
    · rintro ⟨l, hl, hreach⟩
      exact ⟨l, ⟨c :: t, Str.sliceFrom_append _ _, hl⟩, ha, of_decide_eq_true hreach⟩
    · rintro ⟨l, ⟨t', ht', hl⟩, -, hreach⟩
      obtain rfl := Option.some_inj.1 ((Str.sliceFrom_append _ _).symm.trans ht')
      exact ⟨l, hl, decide_eq_true hreach⟩
  · simp only [Option.bind_eq_bind, Option.bind_some, if_neg hopen, Option.pure_def]
    refine Answers.of_iff ⟨fun h => absurd h Bool.false_ne_true, ?_⟩
    rintro ⟨l, href, -⟩
    have := href.opening
    rw [List.getElem?_eq_getElem hlt] at this
    exact absurd (Option.some_inj.1 this) hopen

/-- What the direct test answers: the searches go far enough back. -/
theorem answers_cutsEntity {q r : Nat} (hqr : q ≤ r) (hr : r ≤ Str.len src) :
    Answers (cutsEntity src q r) (Cuts src q r) := by
  have hfirst : ∀ a ∈ List.range' (max (r - maxEntityLen) q) (r - max (r - maxEntityLen) q),
      Answers ((reaches src a r).bind fun v => if v then
          if a = q ∧ r = a + 1 then (escaped src a).bind fun v => some !v else some true
        else some false)
        (Inside src a r ∧ ¬(a = q ∧ r = a + 1 ∧ IsEscaped src a)) := fun a ha => by
    have hlt : a < r := by
      have := List.mem_range'_1.1 ha
      omega
    refine (answers_reaches hlt hr).and fun _ => ?_
    split
    · next heq => exact (answers_escaped (by omega)).not.congr (by simp [heq.1, heq.2])
    · next hne => exact Answers.of_iff (by simp [← and_assoc, hne])
  have hsecond : ∀ a ∈ List.range' (q - maxEntityLen) (q - (q - maxEntityLen)),
      Answers ((reaches src a q).bind fun v => if v then
          (escaped src a).bind fun v => some !v else some false)
        (Inside src a q ∧ ¬IsEscaped src a) := fun a ha => by
    have hlt : a < q := by
      have := List.mem_range'_1.1 ha
      omega
    exact (answers_reaches hlt (hqr.trans hr)).and fun _ => (answers_escaped (by omega)).not
  refine ((Answers.anyM hfirst).or fun _ => Answers.anyM hsecond).congr (or_congr ?_ ?_)
  · refine exists_congr fun a => ⟨fun ⟨ha, h⟩ => ⟨?_, h⟩, fun ⟨ha, h⟩ => ⟨?_, h⟩⟩
    · have := List.mem_range'_1.1 ha
      omega
    · have := h.1.lt_add
      exact List.mem_range'_1.2 (by omega)
  · refine exists_congr fun a => and_iff_right_of_imp fun h => ?_
    have := h.1.lt_add
    exact List.mem_range'_1.2 (by omega)

/-! ## The cover -/

/-- `Option::is_some_and`, of a test that may panic. -/
def isSomeAnd {α : Type} (o : Option α) (f : α → Option Bool) : Option Bool :=
  match o with
  | none => some false
  | some a => f a

theorem answers_isSomeAnd {α : Type} {o : Option α} {f : α → Option Bool} {P : α → Prop}
    (h : ∀ a, o = some a → Answers (f a) (P a)) : Answers (isSomeAnd o f) (∃ a, o = some a ∧ P a) := by
  cases o with
  | none => exact Answers.of_iff (by simp)
  | some a => exact (h a rfl).congr (by simp)

/-- `EntityCover`: for each byte from `start` on, one more than the start of the reference that
    it lies strictly inside, or zero. -/
structure EntityCover where
  start : Nat
  inside : List UInt32
  deriving DecidableEq, Repr

namespace EntityCover

/-- One turn of the pass of `EntityCover::new`: the bytes inside the reference at `a`. -/
def mark (src : Str) (start stop : Nat) (inside : List UInt32) (a : Nat) :
    Option (List UInt32) := do
  if (← (utf8 src)[a]?) ≠ 0x26 then return inside
  match entityLen (← Str.sliceFrom src a) with
  | none => return inside
  | some l =>
    let first := max (a + 1) start
    return (List.range' first (min (a + l) (stop + 1) - first)).foldl
      (fun inside x => inside.set (x - start) (UInt32.ofNat a + 1)) inside

/-- `EntityCover::new`: the references reaching any of `start..=stop`. -/
def new (src : Str) (start stop : Nat) : Option EntityCover := do
  let first := start - maxEntityLen
  let inside ← (List.range' first (stop - first)).foldlM (mark src start stop)
    (List.replicate (stop + 1 - start) 0)
  return ⟨start, inside⟩

/-- `EntityCover::covering`. -/
def covering (cover : EntityCover) (x : Nat) : Option (Option Nat) :=
  if cover.start ≤ x then
    some ((cover.inside[x - cover.start]?).bind fun a =>
      if a = 0 then none else some (a - 1).toNat)
  else none

/-- `EntityCover::cuts`: `cuts_entity` of `q..r`, both in the covered span. -/
def cuts (cover : EntityCover) (src : Str) (q r : Nat) : Option Bool := do
  if ← isSomeAnd (← cover.covering r) fun a => do
      if q ≤ a then if a = q ∧ r = a + 1 then return !(← escaped src a) else return true
      else return false
  then return true
  else isSomeAnd (← cover.covering q) fun a => do return !(← escaped src a)

/-- The cover of the references that start before `upto`. -/
structure Covers (src : Str) (start stop upto : Nat) (inside : List UInt32) : Prop where
  length : inside.length = stop + 1 - start
  inside_iff : ∀ x a, start ≤ x → x ≤ stop →
    ((inside.getD (x - start) 0).toNat = a + 1 ↔ a < upto ∧ Inside src a x)

theorem getD_foldl_set {start first n y : Nat} {v : UInt32} {inside : List UInt32}
    (hfirst : start ≤ first) (hy : start ≤ y) (hlt : y - start < inside.length) :
    ((List.range' first n).foldl (fun inside x => inside.set (x - start) v) inside).getD
      (y - start) 0 = if first ≤ y ∧ y < first + n then v else inside.getD (y - start) 0 := by
  induction n generalizing first inside with
  | zero => rw [List.range'_zero, List.foldl_nil, if_neg (by omega)]
  | succ n ih =>
    rw [List.range'_succ, List.foldl_cons, ih (by omega) (by rwa [List.length_set])]
    rcases Nat.lt_trichotomy y first with hlt' | rfl | hlt'
    · rw [if_neg (by omega), if_neg (by omega), List.getD_eq_getElem?_getD,
        List.getElem?_set_ne (by omega), List.getD_eq_getElem?_getD]
    · rw [if_neg (by omega), if_pos (by omega), List.getD_eq_getElem?_getD,
        List.getElem?_set_self hlt, Option.getD_some]
    · rw [List.getD_eq_getElem?_getD, List.getElem?_set_ne (by omega),
        List.getD_eq_getElem?_getD]
      exact if_congr (by omega) rfl rfl

theorem length_foldl_set {start : Nat} {v : UInt32} {l : List Nat} {inside : List UInt32} :
    (l.foldl (fun inside x => inside.set (x - start) v) inside).length = inside.length := by
  induction l generalizing inside with
  | nil => rfl
  | cons x l ih => rw [List.foldl_cons, ih, List.length_set]

variable {start stop upto : Nat} {inside : List UInt32}

/-- A turn adds the reference at its byte, if there is one. -/
theorem Covers.mark (h : Covers src start stop upto inside) (hupto : upto < stop)
    (hstop : stop ≤ Str.len src) (hlen : Str.len src < 2 ^ 32) :
    ∃ inside', EntityCover.mark src start stop inside upto = some inside' ∧
      Covers src start stop (upto + 1) inside' := by
  -- Where no reference starts there is nothing to add.
  have hnone (hout : ∀ l, ¬Refers src upto l) : Covers src start stop (upto + 1) inside := by
    refine ⟨h.length, fun x a hx hx' => (h.inside_iff x a hx hx').trans ?_⟩
    refine and_congr_left fun ⟨l, href, _⟩ => ⟨fun hlt => by omega, fun hlt => ?_⟩
    refine lt_of_le_of_ne (Nat.lt_succ_iff.1 hlt) ?_
    rintro rfl
    exact hout l href
  have hlt : upto < (utf8 src).length := by
    rw [Str.length_utf8]
    omega
  rw [EntityCover.mark, List.getElem?_eq_getElem hlt, Option.bind_eq_bind, Option.bind_some]
  by_cases hopen : (utf8 src)[upto] = 0x26
  · obtain ⟨p, c, t, rfl, rfl, -⟩ := Str.exists_of_ascii (List.getElem?_eq_getElem hlt)
      (by rw [hopen]; decide)
    rw [if_neg (not_not_intro hopen), Str.sliceFrom_append, Option.bind_eq_bind, Option.bind_some]
    cases hl : entityLen (c :: t) with
    | none =>
      refine ⟨inside, rfl, hnone ?_⟩
      rintro l ⟨t', ht', hl'⟩
      obtain rfl := Option.some_inj.1 ((Str.sliceFrom_append _ _).symm.trans ht')
      rw [hl] at hl'
      cases hl'
    | some l =>
      have href : Refers (p ++ c :: t) (Str.len p) l := ⟨_, Str.sliceFrom_append _ _, hl⟩
      have hword : (UInt32.ofNat (Str.len p) + 1).toNat = Str.len p + 1 := by
        rw [UInt32.toNat_add, UInt32.toNat_ofNat_of_lt' (by rw [UInt32.size]; omega),
          UInt32.toNat_one, Nat.mod_eq_of_lt (by omega)]
      refine ⟨_, rfl, ?_, fun x a hx hx' => ?_⟩
      · rw [length_foldl_set, h.length]
      · rw [getD_foldl_set (le_max_right _ _) hx (by rw [h.length]; omega)]
        have hold := h.inside_iff x a hx hx'
        split
        · next hin =>
          rw [hword, Nat.add_right_cancel_iff]
          have hinside : Inside (p ++ c :: t) (Str.len p) x := ⟨l, href, by omega, by omega⟩
          exact ⟨fun heq => heq ▸ ⟨Nat.lt_succ_self _, hinside⟩,
            fun ⟨_, ha⟩ => hinside.unique ha⟩
        · next hin =>
          rw [hold]
          refine and_congr_left fun ⟨l', href', hlt', hlx⟩ =>
            ⟨fun hlt => by omega, fun hlt => lt_of_le_of_ne (Nat.lt_succ_iff.1 hlt) ?_⟩
          rintro rfl
          obtain ⟨t', ht', hl'⟩ := href'
          obtain rfl := Option.some_inj.1 ((Str.sliceFrom_append _ _).symm.trans ht')
          obtain rfl := Option.some_inj.1 (hl.symm.trans hl')
          omega
  · rw [if_pos hopen]
    refine ⟨inside, rfl, hnone fun l href => hopen ?_⟩
    have := href.opening
    rw [List.getElem?_eq_getElem hlt] at this
    exact Option.some_inj.1 this

theorem Covers.foldlM {n : Nat} (h : Covers src start stop upto inside) (hupto : upto + n ≤ stop)
    (hstop : stop ≤ Str.len src) (hlen : Str.len src < 2 ^ 32) :
    ∃ inside', (List.range' upto n).foldlM (EntityCover.mark src start stop) inside =
      some inside' ∧ Covers src start stop (upto + n) inside' := by
  induction n generalizing upto inside with
  | zero => exact ⟨inside, rfl, h⟩
  | succ n ih =>
    obtain ⟨inside', hmark, h'⟩ := h.mark (by omega) hstop hlen
    obtain ⟨inside'', hrest, h''⟩ := ih h' (by omega)
    refine ⟨inside'', ?_, ?_⟩
    · rw [List.range'_succ, List.foldlM_cons, hmark]
      exact hrest
    · rwa [Nat.add_assoc, Nat.add_comm 1] at h''

/-- The pass covers its span. -/
theorem new_covers (hstart : start ≤ stop) (hstop : stop ≤ Str.len src)
    (hlen : Str.len src < 2 ^ 32) :
    ∃ cover, EntityCover.new src start stop = some cover ∧ cover.start = start ∧
      Covers src start stop stop cover.inside := by
  have hinit : Covers src start stop (start - maxEntityLen)
      (List.replicate (stop + 1 - start) 0) := by
    refine ⟨List.length_replicate, fun x a hx hx' => ?_⟩
    rw [List.getD_replicate (h := by omega)]
    refine ⟨fun h => by simp at h, fun ⟨hlt, hin⟩ => ?_⟩
    have := hin.lt_add
    omega
  obtain ⟨inside, hinside, h⟩ := hinit.foldlM (n := stop - (start - maxEntityLen)) (by omega)
    hstop hlen
  refine ⟨⟨start, inside⟩, ?_, rfl, ?_⟩
  · rw [new, hinside]
    rfl
  · rwa [Nat.add_sub_cancel' (by omega)] at h

theorem covering_spec {cover : EntityCover} (hcover : cover.start = start)
    (h : Covers src start stop stop cover.inside) (hx : start ≤ x) (hx' : x ≤ stop) :
    ∃ o, cover.covering x = some o ∧ ∀ a, o = some a ↔ Inside src a x := by
  subst hcover
  refine ⟨_, if_pos hx, fun a => ?_⟩
  have hiff := h.inside_iff x a hx hx'
  have hlt : x - cover.start < cover.inside.length := by
    rw [h.length]
    omega
  rw [List.getD_eq_getElem _ _ hlt] at hiff
  rw [List.getElem?_eq_getElem hlt, Option.bind_some]
  have hbefore : Inside src a x → a < stop := fun hin => by
    have := hin.lt_add
    omega
  rw [← and_iff_right_of_imp hbefore, ← hiff]
  split
  · next hzero => simp [hzero]
  · next hne =>
    have hpos : 1 ≤ cover.inside[x - cover.start] :=
      Nat.one_le_iff_ne_zero.2 fun h0 => hne (UInt32.toNat_inj.1 h0)
    have hpos' := UInt32.le_iff_toNat_le.1 hpos
    rw [Option.some_inj, UInt32.toNat_sub_of_le _ _ hpos, UInt32.toNat_one]
    rw [UInt32.toNat_one] at hpos'
    omega

theorem answers_cuts {cover : EntityCover} (hcover : cover.start = start)
    (h : Covers src start stop stop cover.inside) {q r : Nat} (hq : start ≤ q) (hqr : q ≤ r)
    (hr : r ≤ stop) (hstop : stop ≤ Str.len src) :
    Answers (cover.cuts src q r) (Cuts src q r) := by
  obtain ⟨o, ho, hend⟩ := covering_spec hcover h (hq.trans hqr) hr
  obtain ⟨o', ho', hbegin⟩ := covering_spec hcover h hq (hqr.trans hr)
  simp only [cuts, ho, ho', Option.bind_eq_bind, Option.bind_some, Option.pure_def]
  refine ((answers_isSomeAnd (P := fun a => q ≤ a ∧ ¬(a = q ∧ r = a + 1 ∧ IsEscaped src a))
    fun a ha => ?_).or fun _ => answers_isSomeAnd (P := fun a => ¬IsEscaped src a)
      fun a ha => ?_).congr ?_
  · split
    · next hqa =>
      split
      · next heq =>
        have hin := ((hend a).1 ha).lt_add
        exact (answers_escaped (by omega)).not.congr (by simp [heq.1, heq.2])
      · next hne => exact Answers.of_iff (by simp [hqa, ← and_assoc, hne])
    · next hqa => exact Answers.of_iff (by simp [hqa])
  · have hin := ((hbegin a).1 ha).lt_add
    exact (answers_escaped (by omega)).not
  · simp only [hend, hbegin, and_left_comm]
    exact Iff.rfl

/-- The cover of a span answers for every window of the span as the direct test does. The length
    of a source is passed to the parser as a 32-bit word. -/
theorem cuts_eq_cutsEntity {src : Str} {start stop : Nat} (hstart : start ≤ stop)
    (hstop : stop ≤ Str.len src) (hlen : Str.len src < 2 ^ 32) :
    ∃ cover, new src start stop = some cover ∧ ∀ q r, start ≤ q → q ≤ r → r ≤ stop →
      ∃ v, cover.cuts src q r = some v ∧ cutsEntity src q r = some v := by
  obtain ⟨cover, hnew, hcover, h⟩ := new_covers hstart hstop hlen
  refine ⟨cover, hnew, fun q r hq hqr hr => ?_⟩
  have hcuts := answers_cuts hcover h hq hqr hr hstop
  obtain ⟨v, hv, -⟩ := id hcuts
  exact ⟨v, hv, ((answers_cutsEntity hqr (hr.trans hstop)).eq hcuts).trans hv⟩

/-- The case of a span that begins inside an escaped reference. -/
theorem cuts_eq_cutsEntity_escaped :
    ∃ cover, new ("\\&amp; b".toList) 3 8 = some cover ∧ ∀ q r, 3 ≤ q → q ≤ r → r ≤ 8 →
      ∃ v, cover.cuts ("\\&amp; b".toList) q r = some v ∧
        cutsEntity ("\\&amp; b".toList) q r = some v :=
  cuts_eq_cutsEntity (by decide) (by decide) (by decide)

example : cutsEntity ("\\&amp; b".toList) 2 8 = some false := by decide

example : cutsEntity ("\\&amp; b".toList) 1 3 = some true := by decide

end EntityCover

end Flark.Native
