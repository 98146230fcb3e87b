import Mathlib.Order.Nat
import Mathlib.Tactic.Common

/-!
# Bisection

The loops of a binary search over the indices of an interval, for a decidable
predicate `p` that holds up to some index and fails from there on (it is only asked
where the search looks). All are structural in a fuel that bounds the length of the
interval.

* `bisectLast_spec`: the last index at which `p` holds, or the low end;
* `bisectFirst_spec`, `bisectClosed_spec`: the first index at which `p` fails, or the high end;
* `bisectLast_eq`, `bisectFirst_eq`: the index that a search finds.
-/

namespace Bisect

/-- `while lo < hi { mid = (lo + hi + 1) / 2; if p mid { lo = mid } else { hi = mid - 1 } }`. -/
def lastFrom (p : Nat → Bool) : (fuel lo hi : Nat) → Nat
  | 0, lo, _ => lo
  | fuel + 1, lo, hi =>
    if lo < hi then
      let mid := (lo + hi + 1) / 2
      if p mid then lastFrom p fuel mid hi else lastFrom p fuel lo (mid - 1)
    else lo

/-- The last index from `lo` to `hi` at which `p` holds, or `lo`. -/
def bisectLast (p : Nat → Bool) (lo hi : Nat) : Nat := lastFrom p (hi - lo) lo hi

/-- `while lo < hi { mid = (lo + hi) / 2; if p mid { lo = mid + 1 } else { hi = mid } }`. -/
def firstFrom (p : Nat → Bool) : (fuel lo hi : Nat) → Nat
  | 0, lo, _ => lo
  | fuel + 1, lo, hi =>
    if lo < hi then
      let mid := (lo + hi) / 2
      if p mid then firstFrom p fuel (mid + 1) hi else firstFrom p fuel lo mid
    else lo

/-- The first index from `lo` on at which `p` fails, or `hi`. -/
def bisectFirst (p : Nat → Bool) (lo hi : Nat) : Nat := firstFrom p (hi - lo) lo hi

/-- `while lo <= last { mid = (lo + last) / 2; if p mid { lo = mid + 1 } else { last = mid - 1 } }`,
    with `hi` one past `last`. -/
def closedFrom (p : Nat → Bool) : (fuel lo hi : Nat) → Nat
  | 0, lo, _ => lo
  | fuel + 1, lo, hi =>
    if lo < hi then
      let mid := (lo + (hi - 1)) / 2
      if p mid then closedFrom p fuel (mid + 1) hi else closedFrom p fuel lo mid
    else lo

/-- The first index from `lo` on at which `p` fails, or `hi`, both bounds in the interval. -/
def bisectClosed (p : Nat → Bool) (lo hi : Nat) : Nat := closedFrom p (hi - lo) lo hi

theorem lastFrom_spec {p : Nat → Bool} {fuel lo hi : Nat} (hle : lo ≤ hi)
    (hfuel : hi - lo ≤ fuel)
    (hp : ∀ i j, lo < i → i ≤ j → j ≤ hi → p j = true → p i = true) :
    lo ≤ lastFrom p fuel lo hi ∧ lastFrom p fuel lo hi ≤ hi ∧
      ∀ i, lo < i → i ≤ hi → (p i = true ↔ i ≤ lastFrom p fuel lo hi) := by
  induction fuel generalizing lo hi with
  | zero =>
    rw [lastFrom]
    exact ⟨Nat.le_refl _, hle, fun i hi' hi'' => by omega⟩
  | succ fuel ih =>
    rw [lastFrom]
    split
    · next hlt =>
      dsimp only
      split
      · next hmid =>
        obtain ⟨h₁, h₂, h₃⟩ := ih (show (lo + hi + 1) / 2 ≤ hi by omega) (by omega)
          fun i j hi' => hp i j (by omega)
        refine ⟨by omega, h₂, fun i hi' hi'' => ?_⟩
        rcases Nat.lt_or_ge ((lo + hi + 1) / 2) i with hgt | hge
        · exact h₃ i hgt hi''
        · exact ⟨fun _ => by omega, fun _ => hp i _ hi' hge (by omega) hmid⟩
      · next hmid =>
        obtain ⟨h₁, h₂, h₃⟩ := ih (show lo ≤ (lo + hi + 1) / 2 - 1 by omega) (by omega)
          fun i j hi' hij hj => hp i j hi' hij (by omega)
        refine ⟨h₁, by omega, fun i hi' hi'' => ?_⟩
        rcases Nat.lt_or_ge i ((lo + hi + 1) / 2) with hlt' | hge
        · exact h₃ i hi' (by omega)
        · exact ⟨fun hpi => absurd (hp _ i (by omega) hge hi'' hpi) hmid, fun _ => by omega⟩
    · exact ⟨Nat.le_refl _, hle, fun i hi' hi'' => by omega⟩

/-- The indices after `lo` at which `p` holds are those up to the result. -/
theorem bisectLast_spec {p : Nat → Bool} {lo hi : Nat} (hle : lo ≤ hi)
    (hp : ∀ i j, lo < i → i ≤ j → j ≤ hi → p j = true → p i = true) :
    lo ≤ bisectLast p lo hi ∧ bisectLast p lo hi ≤ hi ∧
      ∀ i, lo < i → i ≤ hi → (p i = true ↔ i ≤ bisectLast p lo hi) :=
  lastFrom_spec hle (Nat.le_refl _) hp

/-- The search finds `i` if `p` holds at it but not at the next index. -/
theorem bisectLast_eq {p : Nat → Bool} {lo hi i : Nat} (hlo : lo ≤ i) (hhi : i ≤ hi)
    (hp : ∀ i j, lo < i → i ≤ j → j ≤ hi → p j = true → p i = true)
    (hhere : lo < i → p i = true) (hnext : i < hi → p (i + 1) = false) :
    bisectLast p lo hi = i := by
  obtain ⟨h₁, h₂, h₃⟩ := bisectLast_spec (hlo.trans hhi) hp
  refine le_antisymm ?_ ?_
  · by_contra hlt
    have := (h₃ (i + 1) (by omega) (by omega)).2 (by omega)
    rw [hnext (by omega)] at this
    exact absurd this (by simp)
  · rcases Nat.eq_or_lt_of_le hlo with rfl | hlt
    · exact h₁
    · exact (h₃ i hlt hhi).1 (hhere hlt)

/-- A search for the first index at which `p` fails, wherever it splits its interval. -/
def splitFrom (middle : Nat → Nat → Nat) (p : Nat → Bool) : (fuel lo hi : Nat) → Nat
  | 0, lo, _ => lo
  | fuel + 1, lo, hi =>
    if lo < hi then
      if p (middle lo hi) then splitFrom middle p fuel (middle lo hi + 1) hi
      else splitFrom middle p fuel lo (middle lo hi)
    else lo

theorem splitFrom_spec {middle : Nat → Nat → Nat}
    (hmiddle : ∀ lo hi, lo < hi → lo ≤ middle lo hi ∧ middle lo hi < hi) {p : Nat → Bool}
    {fuel lo hi : Nat} (hle : lo ≤ hi) (hfuel : hi - lo ≤ fuel)
    (hp : ∀ i j, lo ≤ i → i ≤ j → j < hi → p j = true → p i = true) :
    lo ≤ splitFrom middle p fuel lo hi ∧ splitFrom middle p fuel lo hi ≤ hi ∧
      ∀ i, lo ≤ i → i < hi → (p i = true ↔ i < splitFrom middle p fuel lo hi) := by
  induction fuel generalizing lo hi with
  | zero =>
    rw [splitFrom]
    exact ⟨Nat.le_refl _, hle, fun i hi' hi'' => by omega⟩
  | succ fuel ih =>
    rw [splitFrom]
    split
    · next hlt =>
      obtain ⟨hlow, hhigh⟩ := hmiddle lo hi hlt
      split
      · next hmid =>
        obtain ⟨h₁, h₂, h₃⟩ := ih (show middle lo hi + 1 ≤ hi by omega) (by omega)
          fun i j hi' => hp i j (by omega)
        refine ⟨by omega, h₂, fun i hi' hi'' => ?_⟩
        rcases Nat.lt_or_ge (middle lo hi) i with hgt | hge
        · exact h₃ i (by omega) hi''
        · exact ⟨fun _ => by omega, fun _ => hp i _ hi' hge (by omega) hmid⟩
      · next hmid =>
        obtain ⟨h₁, h₂, h₃⟩ := ih (show lo ≤ middle lo hi by omega) (by omega)
          fun i j hi' hij hj => hp i j hi' hij (by omega)
        refine ⟨h₁, by omega, fun i hi' hi'' => ?_⟩
        rcases Nat.lt_or_ge i (middle lo hi) with hlt' | hge
        · exact h₃ i hi' (by omega)
        · exact ⟨fun hpi => absurd (hp _ i (by omega) hge hi'' hpi) hmid, fun _ => by omega⟩
    · exact ⟨Nat.le_refl _, hle, fun i hi' hi'' => by omega⟩

theorem firstFrom_eq (p : Nat → Bool) (fuel lo hi : Nat) :
    firstFrom p fuel lo hi = splitFrom (fun lo hi => (lo + hi) / 2) p fuel lo hi := by
  induction fuel generalizing lo hi with
  | zero => rfl
  | succ fuel ih => simp only [firstFrom, splitFrom, ih]

theorem closedFrom_eq (p : Nat → Bool) (fuel lo hi : Nat) :
    closedFrom p fuel lo hi = splitFrom (fun lo hi => (lo + (hi - 1)) / 2) p fuel lo hi := by
  induction fuel generalizing lo hi with
  | zero => rfl
  | succ fuel ih => simp only [closedFrom, splitFrom, ih]

/-- The indices from `lo` on at which `p` holds are those before the result. -/
theorem bisectFirst_spec {p : Nat → Bool} {lo hi : Nat} (hle : lo ≤ hi)
    (hp : ∀ i j, lo ≤ i → i ≤ j → j < hi → p j = true → p i = true) :
    lo ≤ bisectFirst p lo hi ∧ bisectFirst p lo hi ≤ hi ∧
      ∀ i, lo ≤ i → i < hi → (p i = true ↔ i < bisectFirst p lo hi) := by
  rw [bisectFirst, firstFrom_eq]
  exact splitFrom_spec (fun _ _ _ => by omega) hle (Nat.le_refl _) hp

/-- The same of a search with both bounds in the interval. -/
theorem bisectClosed_spec {p : Nat → Bool} {lo hi : Nat} (hle : lo ≤ hi)
    (hp : ∀ i j, lo ≤ i → i ≤ j → j < hi → p j = true → p i = true) :
    lo ≤ bisectClosed p lo hi ∧ bisectClosed p lo hi ≤ hi ∧
      ∀ i, lo ≤ i → i < hi → (p i = true ↔ i < bisectClosed p lo hi) := by
  rw [bisectClosed, closedFrom_eq]
  exact splitFrom_spec (fun _ _ _ => by omega) hle (Nat.le_refl _) hp

/-- The search for a value of an increasing sequence finds where it stands. -/
theorem bisectFirst_eq {f : Nat → Nat} {hi i x : Nat}
    (hf : ∀ j k, j < k → k < hi → f j < f k) (hi' : i < hi) (hx : f i = x) :
    bisectFirst (fun j => f j < x) 0 hi = i := by
  have hp : ∀ j k, 0 ≤ j → j ≤ k → k < hi → decide (f k < x) = true →
      decide (f j < x) = true := by
    intro j k _ hjk hk h
    rw [decide_eq_true_eq] at h ⊢
    rcases Nat.eq_or_lt_of_le hjk with rfl | hlt
    · exact h
    · exact (hf j k hlt hk).trans h
  obtain ⟨-, -, h⟩ := bisectFirst_spec (Nat.zero_le hi) hp
  refine le_antisymm ?_ ?_
  · by_contra hlt
    have := (h i (Nat.zero_le i) hi').2 (by omega)
    rw [decide_eq_true_eq] at this
    omega
  · by_contra hlt
    have hlo := (h _ (Nat.zero_le _) (by omega)).1
      (decide_eq_true (hx ▸ hf _ i (Nat.lt_of_not_le hlt) hi'))
    exact Nat.lt_irrefl _ hlo

end Bisect
