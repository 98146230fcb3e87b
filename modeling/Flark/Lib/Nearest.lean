import Flark.Lib.Bisect
import Mathlib.Data.List.Sort
import Mathlib.Order.Monotone.Basic

/-!
# Nearest points

Moving every element of a linear order onto a set of points.

* `monotone_of_gaps`: such a map is monotone when it keeps the points, never moves an element
  past one, and is monotone between two of them;
* `Neighbours`: the points of a list on the two sides of an element, which bisection finds in
  an ordered list (`neighbours_bisect`).
-/

namespace Flark

namespace Nearest

variable {α : Type*} [LinearOrder α]

theorem monotone_of_gaps {points : Set α} {f : α → α}
    (above : ∀ x, ∀ y ∈ points, x ≤ y → f x ≤ y) (below : ∀ x, ∀ y ∈ points, y ≤ x → y ≤ f x)
    (gap : ∀ x y, x ≤ y → (∀ z ∈ points, ¬(x ≤ z ∧ z ≤ y)) → f x ≤ f y) : Monotone f := by
  intro x y hxy
  by_cases h : ∃ z ∈ points, x ≤ z ∧ z ≤ y
  · obtain ⟨z, hz, hxz, hzy⟩ := h
    exact (above x z hz hxz).trans (below y z hz hzy)
  · push Not at h
    exact gap x y hxy fun z hz hzz => absurd hzz.2 (not_le.2 (h z hz hzz.1))

/-- The points of `l` next to `x`: the last one before it, and the first one that is not. -/
structure Neighbours (l : List α) (x : α) (before after : Option α) : Prop where
  before_mem : ∀ b ∈ before, b ∈ l ∧ b < x
  after_mem : ∀ a ∈ after, a ∈ l ∧ x ≤ a
  le_before : ∀ y ∈ l, y < x → ∃ b ∈ before, y ≤ b
  after_le : ∀ y ∈ l, x ≤ y → ∃ a ∈ after, a ≤ y

namespace Neighbours

variable {l : List α} {x y : α} {before after before' after' : Option α}

/-- What the neighbours are depends on which points come before only. -/
theorem congr (h : Neighbours l x before after) (hxy : ∀ z ∈ l, z < x ↔ z < y) :
    Neighbours l y before after where
  before_mem b hb := ⟨(h.before_mem b hb).1, (hxy b (h.before_mem b hb).1).1 (h.before_mem b hb).2⟩
  after_mem a ha := by
    obtain ⟨hmem, hle⟩ := h.after_mem a ha
    exact ⟨hmem, not_lt.1 (mt (hxy a hmem).2 (not_lt.2 hle))⟩
  le_before z hz hzy := h.le_before z hz ((hxy z hz).2 hzy)
  after_le z hz hyz := h.after_le z hz (not_lt.1 (mt (hxy z hz).1 (not_lt.2 hyz)))

theorem before_le (h : Neighbours l x before after) (h' : Neighbours l x before' after') :
    ∀ b ∈ before, ∃ b' ∈ before', b ≤ b' := fun b hb =>
  h'.le_before b (h.before_mem b hb).1 (h.before_mem b hb).2

theorem le_after (h : Neighbours l x before after) (h' : Neighbours l x before' after') :
    ∀ a ∈ after, ∃ a' ∈ after', a' ≤ a := fun a ha =>
  h'.after_le a (h.after_mem a ha).1 (h.after_mem a ha).2

theorem unique (h : Neighbours l x before after) (h' : Neighbours l x before' after') :
    before = before' ∧ after = after' := by
  have hbefore : ∀ {b b' : Option α}, (∀ y ∈ b, ∃ z ∈ b', y ≤ z) → (∀ y ∈ b', ∃ z ∈ b, y ≤ z) →
      ∀ y ∈ b, y ∈ b' := by
    intro b b' hb hb' y hy
    obtain ⟨z, hz, hyz⟩ := hb y hy
    obtain ⟨w, hw, hzw⟩ := hb' z hz
    obtain rfl := Option.mem_unique hy hw
    rwa [le_antisymm hyz hzw]
  have hafter : ∀ {a a' : Option α}, (∀ y ∈ a, ∃ z ∈ a', z ≤ y) → (∀ y ∈ a', ∃ z ∈ a, z ≤ y) →
      ∀ y ∈ a, y ∈ a' := by
    intro a a' ha ha' y hy
    obtain ⟨z, hz, hzy⟩ := ha y hy
    obtain ⟨w, hw, hwz⟩ := ha' z hz
    obtain rfl := Option.mem_unique hy hw
    rwa [le_antisymm hwz hzy]
  exact ⟨Option.ext fun b => ⟨hbefore (h.before_le h') (h'.before_le h) b,
      hbefore (h'.before_le h) (h.before_le h') b⟩,
    Option.ext fun a => ⟨hafter (h.le_after h') (h'.le_after h) a,
      hafter (h'.le_after h) (h.le_after h') a⟩⟩

/-- Two elements with no point between them have the same neighbours. -/
theorem eq_of_gap (h : Neighbours l x before after) (h' : Neighbours l y before' after')
    (hxy : x ≤ y) (hgap : ∀ z ∈ l, ¬(x ≤ z ∧ z ≤ y)) : before = before' ∧ after = after' := by
  refine h.unique (h'.congr fun z hz => ⟨fun hzy => ?_, fun hzx => hzx.trans_le hxy⟩)
  by_contra hxz
  exact hgap z hz ⟨not_lt.1 hxz, hzy.le⟩

end Neighbours

/-- In an ordered list the neighbours stand on the two sides of where the bisection ends. -/
theorem neighbours_bisect {l : List α} (hl : l.Pairwise (· ≤ ·)) (x d : α) {low : ℕ}
    (hlow : Bisect.bisectFirst (fun mid => l.getD mid d < x) 0 l.length = low) :
    Neighbours l x (if 0 < low then l[low - 1]? else none) l[low]? := by
  have hget : ∀ {i : ℕ} (hi : i < l.length), l.getD i d = l[i] := fun {i} hi => by
    rw [List.getD_eq_getElem?_getD, List.getElem?_eq_getElem hi, Option.getD_some]
  have hmono : ∀ {i j : ℕ} (hi : i < l.length) (hj : j < l.length), i ≤ j → l[i] ≤ l[j] := by
    intro i j hi hj hij
    rcases Nat.lt_or_eq_of_le hij with h | rfl
    · exact List.pairwise_iff_getElem.1 hl i j hi hj h
    · exact le_rfl
  obtain ⟨-, hle, hspec⟩ := Bisect.bisectFirst_spec (p := fun mid => decide (l.getD mid d < x))
    (Nat.zero_le l.length) fun i j _ hij hj h => by
      rw [decide_eq_true_eq, hget (by omega)] at h ⊢
      exact (hmono _ _ hij).trans_lt h
  rw [hlow] at hle hspec
  have hbelow : ∀ {i : ℕ} (hi : i < l.length), i < low ↔ l[i] < x := fun {i} hi => by
    rw [← hspec i (Nat.zero_le i) hi, decide_eq_true_eq, hget hi]
  refine ⟨fun b hb => ?_, fun a ha => ?_, fun y hy hyx => ?_, fun y hy hxy => ?_⟩
  · split at hb
    · obtain ⟨hi, rfl⟩ := List.getElem?_eq_some_iff.1 hb
      exact ⟨List.getElem_mem hi, (hbelow hi).1 (by omega)⟩
    · cases hb
  · obtain ⟨hi, rfl⟩ := List.getElem?_eq_some_iff.1 ha
    exact ⟨List.getElem_mem hi, not_lt.1 (mt (hbelow hi).2 (lt_irrefl _))⟩
  · obtain ⟨i, hi, rfl⟩ := List.getElem_of_mem hy
    have := (hbelow hi).2 hyx
    have hlast : low - 1 < l.length := by omega
    rw [if_pos (by omega)]
    exact ⟨l[low - 1], List.getElem?_eq_getElem hlast, hmono _ _ (by omega)⟩
  · obtain ⟨i, hi, rfl⟩ := List.getElem_of_mem hy
    have := mt (hbelow hi).1 (not_lt.2 hxy)
    exact ⟨l[low], List.getElem?_eq_getElem (by omega), hmono _ _ (by omega)⟩

end Nearest

end Flark
