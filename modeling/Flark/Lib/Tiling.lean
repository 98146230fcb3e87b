import Mathlib.Data.List.Chain
import Mathlib.Order.Basic
import Mathlib.Order.Monotone.Basic

/-!
# Tilings

Items laid end to end: each begins where the one before it ends, and none is empty. Where an item
begins and ends is read off it by two functions into an order.
-/

namespace Flark

namespace Tiling

variable {α β : Type*} [Preorder β] {lo hi : α → β}

/-- The items of a list lie end to end from `a` to `b`. -/
def Tiles (lo hi : α → β) : (a : β) → List α → (b : β) → Prop
  | a, [], b => a = b
  | a, x :: l, b => lo x = a ∧ a < hi x ∧ Tiles lo hi (hi x) l b

variable {a b c : β} {l l' : List α} {x : α}

theorem tiles_append : Tiles lo hi a (l ++ l') c ↔ ∃ b, Tiles lo hi a l b ∧ Tiles lo hi b l' c := by
  induction l generalizing a with
  | nil => simp [Tiles]
  | cons x l ih =>
    simp only [List.cons_append, Tiles, ih]
    exact ⟨fun ⟨h₁, h₂, b, h₃⟩ => ⟨b, ⟨h₁, h₂, h₃.1⟩, h₃.2⟩,
      fun ⟨b, ⟨h₁, h₂, h₃⟩, h₄⟩ => ⟨h₁, h₂, b, h₃, h₄⟩⟩

/-- One more item behind the others. -/
theorem Tiles.concat (h : Tiles lo hi a l (lo x)) (hx : lo x < hi x) :
    Tiles lo hi a (l ++ [x]) (hi x) := tiles_append.2 ⟨lo x, h, rfl, hx, rfl⟩

theorem Tiles.le (h : Tiles lo hi a l b) : a ≤ b := by
  induction l generalizing a with
  | nil => exact h.le
  | cons x l ih => exact h.2.1.le.trans (ih h.2.2)

/-- Items end to end that end where they begin are none. -/
theorem Tiles.eq_nil (h : Tiles lo hi a l a) : l = [] := by
  cases l with
  | nil => rfl
  | cons x l => exact absurd (h.2.1.trans_le h.2.2.le) (lt_irrefl a)

/-- Where an item lies. -/
theorem Tiles.bounds (h : Tiles lo hi a l b) (hx : x ∈ l) : a ≤ lo x ∧ lo x < hi x ∧ hi x ≤ b := by
  induction l generalizing a with
  | nil => cases hx
  | cons y l ih =>
    obtain ⟨rfl, hlt, hrest⟩ := h
    rcases List.mem_cons.1 hx with rfl | hx
    · exact ⟨le_rfl, hlt, hrest.le⟩
    · obtain ⟨hle, hx⟩ := ih hrest hx
      exact ⟨hlt.le.trans hle, hx⟩

/-- Items end to end begin one behind the other. -/
theorem Tiles.pairwise (h : Tiles lo hi a l b) : (l.map lo).Pairwise (· < ·) := by
  induction l generalizing a with
  | nil => exact List.Pairwise.nil
  | cons x l ih =>
    obtain ⟨rfl, hlt, hrest⟩ := h
    refine List.pairwise_cons.2 ⟨fun y hy => ?_, ih hrest⟩
    obtain ⟨z, hz, rfl⟩ := List.mem_map.1 hy
    exact hlt.trans_le (hrest.bounds hz).1

/-- Items that a function moves, their order kept, lie where it moves them. -/
theorem tiles_map {α' β' : Type*} [Preorder β'] {lo' hi' : α' → β'} {f : β → β'} {g : α → α'}
    (hf : ∀ x y, f x < f y ↔ x < y) (hinj : f.Injective) (hlo : ∀ x, lo' (g x) = f (lo x))
    (hhi : ∀ x, hi' (g x) = f (hi x)) :
    Tiles lo' hi' (f a) (l.map g) (f b) ↔ Tiles lo hi a l b := by
  induction l generalizing a with
  | nil => exact hinj.eq_iff
  | cons x l ih => rw [List.map_cons, Tiles, Tiles, hlo, hhi, hinj.eq_iff, hf, ih]

end Tiling

end Flark
