import Flark.Kernel.Legalize

/-!
# The closest caret

What `legalize` is for: of all legal offsets it goes to the one closest to the offset that it is
asked for (`Projection.legalize_closest`). `Prefers` says which of two offsets is the closer one.
-/

namespace Flark

/-- Of two offsets the first is preferred for `o`: one on its line before one that is not, and of
    two on its line the nearer, the earlier at a tie. Of two on other lines, the first that is not
    before `o`, else the last. -/
def Prefers (line : Int → Int) (o y x : Int) : Prop :=
  if line y = line o then
    line x ≠ line o ∨ (y - o).natAbs < (x - o).natAbs ∨
      (y - o).natAbs = (x - o).natAbs ∧ y < x
  else line x ≠ line o ∧ (o ≤ y ∧ (x < o ∨ y < x) ∨ y < o ∧ x < y)

/-- Of two places one is preferred at most. -/
theorem Prefers.asymm {line : Int → Int} {o x y : Int} (h : Prefers line o y x) :
    ¬Prefers line o x y := by
  unfold Prefers at h ⊢
  split at h
  · next hy =>
    rcases h with hx | h
    · rw [if_neg hx]
      exact fun h => h.1 hy
    · split
      · rw [not_or]
        exact ⟨not_not.2 hy, by omega⟩
      · exact fun h => h.1 hy
  · next hy =>
    rw [if_neg h.1]
    have := h.2
    omega

/-- No offset is preferred to the one that is asked for. -/
theorem not_prefers_self (line : Int → Int) (o x : Int) : ¬Prefers line o x o := by
  rw [Prefers]
  split
  · omega
  · exact fun h => h.1 rfl

namespace Projection

variable (gs : Graphemes) (p : Projection)

/-- Out of the hidden syntax that an offset is in. -/
def shownFrom (o : Int) : Int := pastHidden p.hiddenPairs (max 0 (min o p.source.length))

/-- The caret closest to an offset. -/
structure Closest (o y : Int) : Prop where
  legal : p.isLegal gs y = true
  prefers : ∀ x, p.isLegal gs x = true → x ≠ y → Prefers p.model.lineAt (p.shownFrom o) y x

variable {gs p}

/-- The closest place is one. -/
theorem Closest.unique {o x y : Int} (h : p.Closest gs o x) (h' : p.Closest gs o y) : x = y := by
  by_contra hne
  exact (h.prefers y h'.legal fun heq => hne heq.symm).asymm (h'.prefers x h.legal hne)

section

variable (h : Built gs p) (hm : p.model.SchemaConforms p.source)

include h hm

/-- `nearestLegal` prefers as `Prefers` does. -/
theorem settle_prefers {o x y : Int} (ho : ¬p.isLegal gs o = true) (hx : p.isLegal gs x = true)
    (hy : p.settle gs o = y) (hne : x ≠ y) : Prefers p.model.lineAt o y x := by
  obtain ⟨before, after, hn, hnearest⟩ := exists_neighbours gs p o
  have hmono := hm.table.lineAt_mono
  have hmem := (isLegal_iff_mem h hm).1 hx
  rw [settle_of_not_isLegal ho hmem, hnearest] at hy
  have hxo : x ≠ o := fun heq => ho (heq ▸ hx)
  -- By the legal offsets next to it on either side, of which one may be missing. A line further
  -- from it is not the line of one closer to it.
  cases before with
  | none =>
    have hge : o ≤ x := by
      by_contra hlt
      obtain ⟨b, hb, -⟩ := hn.le_before x hmem (not_le.1 hlt)
      cases hb
    obtain ⟨a, ha, hax⟩ := hn.after_le x hmem hge
    obtain rfl := Option.mem_def.1 ha
    rw [nearer_after] at hy
    subst hy
    have hoa := (hn.after_mem a rfl).2
    have h₁ : p.model.lineAt o ≤ p.model.lineAt a := hmono hoa
    have h₂ : p.model.lineAt a ≤ p.model.lineAt x := hmono hax
    unfold Prefers
    split
    · omega
    · omega
  | some b =>
    have hbo := (hn.before_mem b rfl).2
    have h₀ : p.model.lineAt b ≤ p.model.lineAt o := hmono hbo.le
    cases after with
    | none =>
      have hlt : x < o := by
        by_contra hge
        obtain ⟨a, ha, -⟩ := hn.after_le x hmem (not_lt.1 hge)
        cases ha
      obtain ⟨b', hb', hxb⟩ := hn.le_before x hmem hlt
      obtain rfl := Option.some.inj hb'
      rw [nearer_before] at hy
      subst hy
      have h₁ : p.model.lineAt x ≤ p.model.lineAt b := hmono hxb
      unfold Prefers
      split
      · omega
      · omega
    | some a =>
      have hoa := (hn.after_mem a rfl).2
      have h₁ : p.model.lineAt o ≤ p.model.lineAt a := hmono hoa
      have hside : x ≤ b ∨ a ≤ x := by
        rcases lt_or_ge x o with hlt | hge
        · obtain ⟨b', hb', hxb⟩ := hn.le_before x hmem hlt
          obtain rfl := Option.some.inj hb'
          exact Or.inl hxb
        · obtain ⟨a', ha', hax⟩ := hn.after_le x hmem hge
          obtain rfl := Option.some.inj ha'
          exact Or.inr hax
      have h₂ : x ≤ b → p.model.lineAt x ≤ p.model.lineAt b := fun hle => hmono hle
      have h₃ : a ≤ x → p.model.lineAt a ≤ p.model.lineAt x := fun hle => hmono hle
      rw [nearer_between] at hy
      unfold Prefers
      subst hy
      split_ifs <;> omega

/-- `legalize` goes to the closest caret. -/
theorem legalize_closest {x : Int} (hx : p.isLegal gs x = true) (o : Int) :
    p.Closest gs o (p.legalize gs o) where
  legal := isLegal_legalize h hm hx o
  prefers y hy hne := by
    rw [legalize_eq h hm, ← shownFrom] at hne ⊢
    by_cases ho : p.isLegal gs (p.shownFrom o) = true
    · rw [settle, if_pos ho] at hne ⊢
      rw [Prefers, if_pos rfl]
      exact Or.inr (Or.inl (by omega))
    · exact settle_prefers h hm ho hy rfl hne

end

end Projection

end Flark
