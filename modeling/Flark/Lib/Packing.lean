import Mathlib.Data.List.Basic
import Mathlib.Data.Nat.Bitwise

/-!
# Packed records

Fields packed into machine words, and records laid out one after the other.

* `toNat_or_shiftLeft`: a word of two fields that do not overlap is their sum, the
  higher one scaled; `add_mul_two_pow_and`, `add_mul_two_pow_shiftRight` read them back;
* `ofLeBytes_toLeBytes`: a word is its little-endian bytes;
* `flatMap_getElem?`: a word of a record found at the length of the records before
  it, whatever their widths; `getElem?_flatten_width` for records of one width.
-/

namespace Packing

/-! ## Fields of a word -/

/-- A word of a low field below `2 ^ s` and a high field shifted by `s`. -/
theorem toNat_or_shiftLeft {low high : UInt32} {s : UInt32} (hs : s.toNat < 32)
    (hlow : low.toNat < 2 ^ s.toNat) (hhigh : high.toNat * 2 ^ s.toNat < 2 ^ 32) :
    (low ||| high <<< s).toNat = low.toNat + high.toNat * 2 ^ s.toNat := by
  rw [UInt32.toNat_or, UInt32.toNat_shiftLeft, Nat.mod_eq_of_lt hs, Nat.shiftLeft_eq,
    Nat.mod_eq_of_lt hhigh, Nat.lor_comm, ← Nat.shiftLeft_eq,
    ← Nat.shiftLeft_add_eq_or_of_lt hlow, Nat.add_comm]

/-- The low field is what the mask of its width keeps. -/
theorem add_mul_two_pow_and {low high s : Nat} (hlow : low < 2 ^ s) :
    (low + high * 2 ^ s) &&& (2 ^ s - 1) = low := by
  rw [Nat.and_two_pow_sub_one_eq_mod, Nat.add_mul_mod_self_right, Nat.mod_eq_of_lt hlow]

/-- The high field is what the shift by the width of the low one leaves. -/
theorem add_mul_two_pow_shiftRight {low high s : Nat} (hlow : low < 2 ^ s) :
    (low + high * 2 ^ s) >>> s = high := by
  rw [Nat.shiftRight_eq_div_pow, Nat.add_mul_div_right _ _ (Nat.two_pow_pos s),
    Nat.div_eq_of_lt hlow, Nat.zero_add]

/-! ## Bytes of words -/

/-- The word of four little-endian bytes. -/
def ofLeBytes (b₀ b₁ b₂ b₃ : UInt8) : UInt32 :=
  (b₀.toNat + b₁.toNat * 2 ^ 8 + b₂.toNat * 2 ^ 16 + b₃.toNat * 2 ^ 24).toUInt32

/-- The little-endian bytes of a word. -/
def toLeBytes (w : UInt32) : List UInt8 :=
  [w.toNat.toUInt8, (w.toNat / 2 ^ 8).toUInt8, (w.toNat / 2 ^ 16).toUInt8,
    (w.toNat / 2 ^ 24).toUInt8]

/-- The bytes of words one after the other. -/
def leBytes (words : List UInt32) : List UInt8 := words.flatMap toLeBytes

/-- The words of bytes, by fours; up to three bytes at the end are left out. -/
def leWords : List UInt8 → List UInt32
  | b₀ :: b₁ :: b₂ :: b₃ :: bytes => ofLeBytes b₀ b₁ b₂ b₃ :: leWords bytes
  | _ => []

theorem toLeBytes_ofLeBytes (b₀ b₁ b₂ b₃ : UInt8) :
    toLeBytes (ofLeBytes b₀ b₁ b₂ b₃) = [b₀, b₁, b₂, b₃] := by
  have h₀ := b₀.toNat_lt
  have h₁ := b₁.toNat_lt
  have h₂ := b₂.toNat_lt
  have h₃ := b₃.toNat_lt
  have hw : (ofLeBytes b₀ b₁ b₂ b₃).toNat =
      b₀.toNat + b₁.toNat * 2 ^ 8 + b₂.toNat * 2 ^ 16 + b₃.toNat * 2 ^ 24 := by
    rw [ofLeBytes, UInt32.toNat_ofNat']
    omega
  rw [toLeBytes, hw]
  simp only [List.cons.injEq, and_true, ← UInt8.toNat_inj, UInt8.toNat_ofNat']
  omega

theorem ofLeBytes_toLeBytes (w : UInt32) (bytes : List UInt8) :
    leWords (toLeBytes w ++ bytes) = w :: leWords bytes := by
  have hw := w.toNat_lt
  simp only [toLeBytes, List.cons_append, List.nil_append, leWords, List.cons.injEq, and_true,
    ofLeBytes, ← UInt32.toNat_inj, UInt32.toNat_ofNat', UInt8.toNat_ofNat']
  omega

theorem leWords_leBytes (words : List UInt32) : leWords (leBytes words) = words := by
  induction words with
  | nil => rfl
  | cons w words ih => rw [leBytes, List.flatMap_cons, ofLeBytes_toLeBytes, ← leBytes, ih]

theorem length_leBytes (words : List UInt32) : (leBytes words).length = words.length * 4 := by
  induction words with
  | nil => rfl
  | cons w words ih =>
    rw [leBytes, List.flatMap_cons, List.length_append, ← leBytes, ih, List.length_cons,
      Nat.succ_mul, Nat.add_comm]
    rfl

theorem leBytes_append (v w : List UInt32) : leBytes (v ++ w) = leBytes v ++ leBytes w :=
  List.flatMap_append

/-! ## Records one after the other -/

variable {α β : Type*}

/-- Where the record of the `i`th entry begins. -/
theorem flatMap_getElem? {f : α → List β} {l : List α} {i k : Nat} {a : α}
    (ha : l[i]? = some a) (hk : k < (f a).length) :
    (l.flatMap f)[((l.take i).flatMap f).length + k]? = (f a)[k]? := by
  obtain ⟨hlt, rfl⟩ := List.getElem?_eq_some_iff.1 ha
  have hsplit : l.flatMap f = (l.take i).flatMap f ++ (l.drop i).flatMap f := by
    rw [← List.flatMap_append, List.take_append_drop]
  rw [hsplit, List.getElem?_append_right (Nat.le_add_right _ _), Nat.add_sub_cancel_left,
    ← List.getElem_cons_drop hlt, List.flatMap_cons, List.getElem?_append_left hk]

theorem length_flatten_width {w : Nat} {records : List (List β)}
    (hw : ∀ r ∈ records, r.length = w) : records.flatten.length = records.length * w := by
  induction records with
  | nil => simp
  | cons r records ih =>
    rw [List.flatten_cons, List.length_append, hw r List.mem_cons_self,
      ih fun r' hr' => hw r' (List.mem_cons_of_mem _ hr'), List.length_cons, Nat.succ_mul,
      Nat.add_comm]

theorem length_flatMap_width {f : α → List β} {w : Nat} {l : List α}
    (hf : ∀ a ∈ l, (f a).length = w) : (l.flatMap f).length = l.length * w := by
  rw [List.flatMap_def, length_flatten_width (List.forall_mem_map.2 hf), List.length_map]

/-- Records of one width `w` begin at its multiples. -/
theorem getElem?_flatten_width {w : Nat} {records : List (List β)} {i k : Nat} {r : List β}
    (hw : ∀ r ∈ records, r.length = w) (hr : records[i]? = some r) (hk : k < w) :
    records.flatten[i * w + k]? = r[k]? := by
  have hlen : ((records.take i).flatMap id).length = i * w := by
    rw [length_flatMap_width (w := w) (f := id) fun r hr => hw r (List.mem_of_mem_take hr),
      List.length_take, Nat.min_eq_left (List.getElem?_eq_some_iff.1 hr).1.le]
  rw [← hlen, ← List.flatMap_id]
  exact flatMap_getElem? (f := id) hr (by rwa [id, hw r (List.mem_of_getElem? hr)])

end Packing
