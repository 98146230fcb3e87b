import Mathlib.Order.Lattice
import Mathlib.Tactic.Linarith

/-!
# Scans

A loop that advances while what it looks at holds, for a number of turns at most. It comes to the
first place that fails, or to the last one it may reach; so a loop that starts further on comes
to the same place, where all before its start holds.
-/

namespace Flark

namespace Scan

/-- Advance from `i` while `p` holds, at most `n` times. -/
def upTo (p : Nat → Bool) : (n : Nat) → (i : Nat) → Nat
  | 0, i => i
  | n + 1, i => if p i then upTo p n (i + 1) else i

variable {p : Nat → Bool} {n i j : Nat}

theorem upTo_succ : upTo p (n + 1) i = if p i then upTo p n (i + 1) else i := rfl

theorem le_upTo (p : Nat → Bool) (n i : Nat) : i ≤ upTo p n i := by
  induction n generalizing i with
  | zero => exact le_rfl
  | succ n ih =>
    rw [upTo_succ]
    split
    · exact (Nat.le_succ i).trans (ih (i + 1))
    · exact le_rfl

theorem upTo_le (p : Nat → Bool) (n i : Nat) : upTo p n i ≤ i + n := by
  induction n generalizing i with
  | zero => exact le_rfl
  | succ n ih =>
    rw [upTo_succ]
    split
    · have := ih (i + 1)
      omega
    · exact Nat.le_add_right _ _

theorem holds {k : Nat} (hi : i ≤ k) (hk : k < upTo p n i) : p k = true := by
  induction n generalizing i with
  | zero => exact absurd hk (not_lt.2 hi)
  | succ n ih =>
    rw [upTo_succ] at hk
    split at hk
    · next hp =>
      rcases hi.eq_or_lt with rfl | hlt
      · exact hp
      · exact ih hlt hk
    · exact absurd hk (not_lt.2 hi)

theorem fails (h : upTo p n i < i + n) : p (upTo p n i) = false := by
  induction n generalizing i with
  | zero => exact absurd h (lt_irrefl i)
  | succ n ih =>
    rw [upTo_succ] at h ⊢
    split at h
    · next hp =>
      rw [if_pos hp]
      exact ih (by omega)
    · next hp =>
      rw [if_neg hp]
      exact Bool.eq_false_of_not_eq_true hp

/-- Where a scan stops, by what it looks at. -/
theorem upTo_eq (hij : i ≤ j) (hj : j ≤ i + n) (h : ∀ k, i ≤ k → k < j → p k = true)
    (hstop : j < i + n → p j = false) : upTo p n i = j := by
  induction n generalizing i with
  | zero => exact hij.antisymm hj
  | succ n ih =>
    rcases hij.eq_or_lt with rfl | hlt
    · rw [upTo_succ, hstop (by omega), if_neg Bool.false_ne_true]
    · rw [upTo_succ, if_pos (h i le_rfl hlt)]
      exact ih hlt (by omega) (fun k hk => h k (by omega)) fun hj' => hstop (by omega)

/-- A scan from further on comes to the same place, where what lies between holds. -/
theorem upTo_eq_of_holds (hij : i ≤ j) (hj : j ≤ i + n) (h : ∀ k, i ≤ k → k < j → p k = true) :
    upTo p (i + n - j) j = upTo p n i := by
  induction n generalizing i with
  | zero =>
    obtain rfl : i = j := by omega
    rw [Nat.add_zero, Nat.sub_self]
  | succ n ih =>
    rcases hij.eq_or_lt with rfl | hlt
    · rw [Nat.add_sub_cancel_left]
    · rw [upTo_succ, if_pos (h i le_rfl hlt), ← ih hlt (by omega) fun k hk => h k (by omega)]
      congr 1
      omega

/-- Two scans agree where what they look at does, up to where the first one stops. -/
theorem upTo_congr {p' : Nat → Bool} (h : ∀ k, i ≤ k → k < upTo p n i → p' k = p k)
    (hstop : upTo p n i < i + n → p' (upTo p n i) = false) : upTo p' n i = upTo p n i := by
  induction n generalizing i with
  | zero => rfl
  | succ n ih =>
    have hle := le_upTo p n (i + 1)
    rw [upTo_succ] at h hstop
    rw [upTo_succ, upTo_succ]
    split at h
    · next hp =>
      rw [if_pos hp] at hstop
      rw [if_pos hp, h i le_rfl hle, if_pos hp]
      exact ih (fun k hk => h k (by omega)) fun hlt => hstop (by omega)
    · next hp =>
      rw [if_neg hp] at hstop
      rw [if_neg hp, hstop (by omega), if_neg Bool.false_ne_true]

end Scan

end Flark
