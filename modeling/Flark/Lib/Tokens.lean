import Mathlib.Data.List.Basic
import Mathlib.Order.Lattice

/-!
# Tokens of several units

A list of tokens, each spelled by some units. The offset of a place between two tokens is the
length of what is spelled before it; so there are two ways to name a place, by its offset and by
the tokens before it. Replacing tokens moves the places behind them.
-/

namespace Flark

namespace Tokens

variable {τ α : Type*} (spell : τ → List α)

/-- What the tokens spell. -/
def spelled (ts : List τ) : List α := ts.flatMap spell

/-- The offset of the place behind the first `k` tokens. -/
def offset (ts : List τ) (k : Nat) : Nat := (spelled spell (ts.take k)).length

variable {spell} {ts piece : List τ} {a b k : Nat}

theorem spelled_append (ts ts' : List τ) :
    spelled spell (ts ++ ts') = spelled spell ts ++ spelled spell ts' := List.flatMap_append

theorem offset_zero (ts : List τ) : offset spell ts 0 = 0 := by
  rw [offset, List.take_zero]
  rfl

theorem offset_succ (t : τ) (ts : List τ) (k : Nat) :
    offset spell (t :: ts) (k + 1) = (spell t).length + offset spell ts k := by
  rw [offset, List.take_succ_cons, spelled, List.flatMap_cons, List.length_append]
  rfl

theorem offset_of_length_le (h : ts.length ≤ k) :
    offset spell ts k = (spelled spell ts).length := by
  rw [offset, List.take_of_length_le h]

/-- The place of a token is counted on from an earlier one. -/
theorem offset_add (ts : List τ) (a k : Nat) :
    offset spell ts (a + k) = offset spell ts a + offset spell (ts.drop a) k := by
  rw [offset, offset, offset, List.take_add, spelled_append, List.length_append]

theorem offset_mono (h : a ≤ b) : offset spell ts a ≤ offset spell ts b := by
  obtain ⟨k, rfl⟩ := Nat.exists_eq_add_of_le h
  rw [offset_add]
  exact Nat.le_add_right _ _

theorem offset_le (ts : List τ) (k : Nat) : offset spell ts k ≤ (spelled spell ts).length := by
  rw [← offset_of_length_le (le_max_left ts.length k)]
  exact offset_mono (le_max_right _ _)

/-- The text before a token is what the tokens before it spell. -/
theorem take_offset (ts : List τ) (k : Nat) :
    (spelled spell ts).take (offset spell ts k) = spelled spell (ts.take k) := by
  conv_lhs => rw [← List.take_append_drop k ts, spelled_append, List.take_append_drop]
  exact List.take_left

/-- The text from a token on is what the tokens from it on spell. -/
theorem drop_offset (ts : List τ) (k : Nat) :
    (spelled spell ts).drop (offset spell ts k) = spelled spell (ts.drop k) := by
  conv_lhs => rw [← List.take_append_drop k ts, spelled_append, List.take_append_drop]
  exact List.drop_left

/-- Places are as far apart as there are tokens between them, at least. -/
theorem add_le_offset (hspell : ∀ t, spell t ≠ []) (h : a + k ≤ ts.length) :
    offset spell ts a + k ≤ offset spell ts (a + k) := by
  rw [offset_add, Nat.add_le_add_iff_left]
  have hk : k ≤ (ts.drop a).length := by
    rw [List.length_drop]
    omega
  generalize ts.drop a = ts at hk
  induction ts generalizing k with
  | nil => exact hk.trans (Nat.zero_le _)
  | cons t ts ih =>
    obtain _ | k := k
    · exact Nat.zero_le _
    · have ih := @ih k
      have hpos := List.length_pos_of_ne_nil (hspell t)
      rw [List.length_cons] at hk
      rw [offset_succ]
      omega

/-! ## Replacing tokens -/

/-- A piece in place of the tokens from `a` to `b`. -/
def splice (ts : List τ) (a b : Nat) (piece : List τ) : List τ := ts.take a ++ piece ++ ts.drop b

/-- A splice of tokens splices what they spell. -/
theorem spelled_splice (ts : List τ) (a b : Nat) (piece : List τ) :
    spelled spell (splice ts a b piece) = (spelled spell ts).take (offset spell ts a) ++
      spelled spell piece ++ (spelled spell ts).drop (offset spell ts b) := by
  rw [splice, spelled_append, spelled_append, take_offset, drop_offset]

/-- In front of a splice the places stay. -/
theorem offset_splice_before (ha : a ≤ ts.length) (hk : k ≤ a) :
    offset spell (splice ts a b piece) k = offset spell ts k := by
  rw [offset, offset, splice, List.append_assoc, List.take_append_of_le_length, List.take_take,
    Nat.min_eq_left hk]
  rwa [List.length_take, Nat.min_eq_left ha]

theorem drop_splice (ha : a ≤ ts.length) :
    (splice ts a b piece).drop a = piece ++ ts.drop b := by
  rw [splice, List.append_assoc]
  exact List.drop_left' (by rw [List.length_take, Nat.min_eq_left ha])

/-- In a splice the places are those of the piece. -/
theorem offset_splice_within (ha : a ≤ ts.length) (hk : k ≤ piece.length) :
    offset spell (splice ts a b piece) (a + k) = offset spell ts a + offset spell piece k := by
  rw [offset_add, offset_splice_before ha le_rfl, drop_splice ha]
  congr 1
  rw [offset, offset, List.take_append_of_le_length hk]

/-- Behind a splice the places move by what it spells more. -/
theorem offset_splice_after (ha : a ≤ ts.length) (k : Nat) :
    offset spell (splice ts a b piece) (a + piece.length + k) + offset spell ts b =
      offset spell ts a + (spelled spell piece).length + offset spell ts (b + k) := by
  rw [offset_add, offset_splice_within ha le_rfl, offset_of_length_le (le_refl piece.length),
    ← List.drop_drop, drop_splice ha, List.drop_left, offset_add]
  omega

end Tokens

end Flark
