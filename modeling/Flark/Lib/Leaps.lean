import Mathlib.Data.List.GetD
import Mathlib.Order.Nat

/-!
# Leaps to open places

A table over the places `0` to `n` that leads each place to a later one, or to itself, and skips no
place that is open: the places of a union-find over the next open one, where `n` stands for none.

* `IsNext`: the first open place from another one on;
* `Leaps.toNext`: an entry may lead there at once, which shortens the way of others;
* `Leaps.close`: an open place is closed by an entry that leads past it.
-/

namespace Flark

/-- A place `r` is the first open one from `l` on, or `n` where there is none. -/
structure IsNext (isOpen : Nat → Prop) (n l r : Nat) : Prop where
  le : l ≤ r
  le_end : r ≤ n
  isOpen_or : isOpen r ∨ r = n
  skipped : ∀ k, l ≤ k → k < r → ¬isOpen k

theorem IsNext.unique {isOpen : Nat → Prop} {n l r r' : Nat} (h : IsNext isOpen n l r)
    (h' : IsNext isOpen n l r') : r = r' := by
  have hle {r r' : Nat} (h : IsNext isOpen n l r) (h' : IsNext isOpen n l r') : r ≤ r' := by
    by_contra hlt
    rcases h'.isOpen_or with hopen | rfl
    · exact h.skipped r' h'.le (not_le.1 hlt) hopen
    · exact hlt h.le_end
  exact le_antisymm (hle h h') (hle h' h)

/-- What is next from a place is next from any place between. -/
theorem IsNext.between {isOpen : Nat → Prop} {n l u r : Nat} (h : IsNext isOpen n l r) (hu : l ≤ u)
    (hur : u ≤ r) : IsNext isOpen n u r where
  le := hur
  le_end := h.le_end
  isOpen_or := h.isOpen_or
  skipped k hk := h.skipped k (hu.trans hk)

/-- The table leads from place to place and skips nothing that is open. -/
structure Leaps (isOpen : Nat → Prop) (n : Nat) (next : List Nat) : Prop where
  length : next.length = n + 1
  le : ∀ l u : Nat, next[l]? = some u → l ≤ u
  le_end : ∀ l u : Nat, next[l]? = some u → u ≤ n
  isOpen_or : ∀ l : Nat, next[l]? = some l → isOpen l ∨ l = n
  skipped : ∀ l u : Nat, next[l]? = some u → ∀ k, l ≤ k → k < u → ¬isOpen k

namespace Leaps

variable {isOpen : Nat → Prop} {n : Nat} {next : List Nat}

theorem congr {isOpen' : Nat → Prop} (h : Leaps isOpen n next)
    (hopen : ∀ k, isOpen k ↔ isOpen' k) : Leaps isOpen' n next := by
  rwa [← funext fun k => propext (hopen k)]

variable (h : Leaps isOpen n next)

include h

theorem exists_getElem? {l : Nat} (hl : l ≤ n) : ∃ u, next[l]? = some u :=
  ⟨_, List.getElem?_eq_getElem (by rw [h.length]; omega)⟩

/-- A place that leads to itself is the next one. -/
theorem isNext_self {l : Nat} (hl : next[l]? = some l) : IsNext isOpen n l l where
  le := le_rfl
  le_end := h.le_end l l hl
  isOpen_or := h.isOpen_or l hl
  skipped _ hk hk' := absurd hk' (not_lt.2 hk)

/-- What is next from where a place leads is next from that place. -/
theorem isNext_step {l u r : Nat} (hl : next[l]? = some u) (hr : IsNext isOpen n u r) :
    IsNext isOpen n l r where
  le := (h.le l u hl).trans hr.le
  le_end := hr.le_end
  isOpen_or := hr.isOpen_or
  skipped k hk hk' := by
    rcases lt_or_ge k u with hku | hku
    · exact h.skipped l u hl k hk hku
    · exact hr.skipped k hku hk'

/-- From a place on, where it leads is not past what is next. -/
theorem le_isNext {l u r : Nat} (hl : next[l]? = some u) (hr : IsNext isOpen n l r) : u ≤ r := by
  by_contra hlt
  rw [not_le] at hlt
  rcases hr.isOpen_or with hopen | rfl
  · exact h.skipped l u hl r hr.le hlt hopen
  · exact absurd (h.le_end l u hl) (not_le.2 hlt)

/-- An entry may lead to the next place at once. -/
theorem toNext {l r : Nat} (hr : IsNext isOpen n l r) : Leaps isOpen n (next.set l r) where
  length := by rw [List.length_set, h.length]
  le k u hk := by
    rw [List.getElem?_set] at hk
    split_ifs at hk with heq hlt
    · obtain rfl := Option.some.inj hk
      exact heq ▸ hr.le
    · exact h.le k u hk
  le_end k u hk := by
    rw [List.getElem?_set] at hk
    split_ifs at hk with heq hlt
    · obtain rfl := Option.some.inj hk
      exact hr.le_end
    · exact h.le_end k u hk
  isOpen_or k hk := by
    rw [List.getElem?_set] at hk
    split_ifs at hk with heq hlt
    · obtain rfl := Option.some.inj hk
      exact hr.isOpen_or
    · exact h.isOpen_or k hk
  skipped k u hk := by
    rw [List.getElem?_set] at hk
    split_ifs at hk with heq hlt
    · obtain rfl := Option.some.inj hk
      exact heq ▸ hr.skipped
    · exact h.skipped k u hk

/-- An open place is closed by an entry that leads past it. -/
theorem close {l : Nat} (hl : l < n) :
    Leaps (fun k => isOpen k ∧ k ≠ l) n (next.set l (l + 1)) where
  length := by rw [List.length_set, h.length]
  le k u hk := by
    rw [List.getElem?_set] at hk
    split_ifs at hk with heq hlt
    · obtain rfl := Option.some.inj hk
      exact heq ▸ Nat.le_succ l
    · exact h.le k u hk
  le_end k u hk := by
    rw [List.getElem?_set] at hk
    split_ifs at hk with heq hlt
    · obtain rfl := Option.some.inj hk
      exact hl
    · exact h.le_end k u hk
  isOpen_or k hk := by
    rw [List.getElem?_set] at hk
    split_ifs at hk with heq hlt
    · have := Option.some.inj hk
      omega
    · exact (h.isOpen_or k hk).imp_left fun hopen => ⟨hopen, fun hkl => heq hkl.symm⟩
  skipped k u hk := by
    rw [List.getElem?_set] at hk
    split_ifs at hk with heq hlt
    · obtain rfl := Option.some.inj hk
      intro i hi hi'
      exact fun hopen => hopen.2 (by omega)
    · exact fun i hi hi' hopen => h.skipped k u hk i hi hi' hopen.1

end Leaps

end Flark
