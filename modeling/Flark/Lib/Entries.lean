import Mathlib.Data.Finmap

/-!
# Entries

Finite maps compared by going through the entries of one of them: a map with as many entries
as another, and every entry of it, is that map.
-/

namespace Flark

namespace Entries

variable {α : Type*} {β : α → Type*} [DecidableEq α]

/-- The number of entries. -/
def length (s : Finmap β) : Nat := s.entries.card

/-- Every entry of `s` is one of `t`. -/
def Covers (t s : Finmap β) : Prop := ∀ e ∈ s.entries, t.lookup e.1 = some e.2

instance [∀ a, DecidableEq (β a)] (t s : Finmap β) : Decidable (Covers t s) :=
  inferInstanceAs (Decidable (∀ e ∈ s.entries, t.lookup e.1 = some e.2))

theorem covers_iff_le {t s : Finmap β} : Covers t s ↔ s.entries ≤ t.entries := by
  rw [Multiset.le_iff_subset s.nodup_entries]
  exact forall₂_congr fun e _ => Finmap.mem_lookup_iff

theorem eq_of_covers {t s : Finmap β} (hlen : length t = length s) (h : Covers t s) : t = s :=
  (Finmap.ext (Multiset.eq_of_le_of_card_le (covers_iff_le.1 h) (le_of_eq hlen))).symm

theorem covers_self (s : Finmap β) : Covers s s := covers_iff_le.2 le_rfl

/-- Maps with the same number of entries, one of which has those of the other, are the same,
    whatever the order in which their entries were added. -/
theorem eq_iff_covers {t s : Finmap β} : t = s ↔ length t = length s ∧ Covers t s := by
  constructor
  · rintro rfl
    exact ⟨rfl, covers_self t⟩
  · rintro ⟨hlen, h⟩
    exact eq_of_covers hlen h

end Entries

end Flark
