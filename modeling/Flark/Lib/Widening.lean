import Mathlib.Data.Set.Basic
import Mathlib.Logic.Relation
import Mathlib.Order.MinMax

/-!
# Ranges that strand no delimiter

Intervals in delimiters (`Wrap`), and ranges that take in the delimiters of what they contain. A
range is widened by one wrap at a time (`Widens`). Where wraps nest, and the range it starts from
has no end inside a delimiter, each widening takes in whole delimiters, only the wraps that touch
an end of a range can still be stranded, and the range at last is the least one.

* `Clear.whole`: when it is enough to look at the ends;
* `widens_spec`: what is known of a range that is reached.
-/

namespace Flark

namespace Widening

variable {α : Type*}

/-- An interval in the delimiters around it. -/
structure Wrap (α : Type*) where
  start : α
  innerStart : α
  innerStop : α
  stop : α

section Defs

variable [LinearOrder α]

structure Wrap.Ordered (w : Wrap α) : Prop where
  opening : w.start ≤ w.innerStart
  inner : w.innerStart ≤ w.innerStop
  closing : w.innerStop ≤ w.stop

/-- An offset strictly inside a delimiter. -/
def Wrap.Cut (w : Wrap α) (x : α) : Prop :=
  w.start < x ∧ x < w.innerStart ∨ w.innerStop < x ∧ x < w.stop

/-- One lies behind the other, or inside it between its delimiters. -/
def Wrap.Nests (v w : Wrap α) : Prop :=
  v.stop ≤ w.start ∨ w.stop ≤ v.start ∨ v.innerStart ≤ w.start ∧ w.stop ≤ v.innerStop ∨
    w.innerStart ≤ v.start ∧ v.stop ≤ w.innerStop

/-- The second range has the first. -/
def Within (r r' : α × α) : Prop := r'.1 ≤ r.1 ∧ r.2 ≤ r'.2

/-- The range has what is between the delimiters, and lacks one of them. -/
def Strands (r : α × α) (w : Wrap α) : Prop :=
  r.1 ≤ w.innerStart ∧ w.innerStop ≤ r.2 ∧ ¬(r.1 ≤ w.start ∧ w.stop ≤ r.2)

def widen (r : α × α) (w : Wrap α) : α × α := (min r.1 w.start, max r.2 w.stop)

/-- One widening, by a stranded wrap. -/
def Widens (ws : Set (Wrap α)) (r r' : α × α) : Prop := ∃ w ∈ ws, Strands r w ∧ r' = widen r w

/-- The range strands none of the wraps. -/
def Whole (ws : Set (Wrap α)) (r : α × α) : Prop := ∀ w ∈ ws, ¬Strands r w

/-- Neither end of the range is inside a delimiter. -/
def Clear (ws : Set (Wrap α)) (r : α × α) : Prop := ∀ w ∈ ws, ¬w.Cut r.1 ∧ ¬w.Cut r.2

end Defs

variable [LinearOrder α] {ws os : Set (Wrap α)} {r r' r'' : α × α} {w v : Wrap α} {x : α}

theorem Within.refl (r : α × α) : Within r r := ⟨le_rfl, le_rfl⟩

theorem Within.trans (h : Within r r') (h' : Within r' r'') : Within r r'' :=
  ⟨h'.1.trans h.1, h.2.trans h'.2⟩

theorem within_widen (r : α × α) (w : Wrap α) : Within r (widen r w) :=
  ⟨min_le_left _ _, le_max_left _ _⟩

/-- A range that strands nothing and has a range has what that is widened to. -/
theorem widen_within (h : Strands r w) (hw : ¬Strands r' w) (hr : Within r r') :
    Within (widen r w) r' := by
  have hall : r'.1 ≤ w.start ∧ w.stop ≤ r'.2 := by
    by_contra hnot
    exact hw ⟨hr.1.trans h.1, h.2.1.trans hr.2, hnot⟩
  exact ⟨le_min hr.1 hall.1, max_le hr.2 hall.2⟩

/-- A wrap that nests has no end of another one inside a delimiter. -/
theorem Wrap.Nests.not_cut (h : v.Nests w) (hv : v.Ordered) (hw : w.Ordered) :
    ¬v.Cut w.start ∧ ¬v.Cut w.stop := by
  have hle := (hw.opening.trans hw.inner).trans hw.closing
  have hin := (hv.opening.trans hv.inner).trans hv.closing
  rcases h with h | h | ⟨h₁, h₂⟩ | ⟨h₁, h₂⟩
  · refine ⟨?_, ?_⟩
    · rintro (⟨-, hlt⟩ | ⟨-, hlt⟩)
      · exact absurd (hlt.trans_le (hv.inner.trans hv.closing)) (not_lt.2 h)
      · exact absurd hlt (not_lt.2 h)
    · rintro (⟨-, hlt⟩ | ⟨-, hlt⟩)
      · exact absurd (hlt.trans_le (hv.inner.trans hv.closing)) (not_lt.2 (h.trans hle))
      · exact absurd hlt (not_lt.2 (h.trans hle))
  · refine ⟨?_, ?_⟩
    · rintro (⟨hlt, -⟩ | ⟨hlt, -⟩)
      · exact absurd hlt (not_lt.2 (hle.trans h))
      · exact absurd hlt (not_lt.2 (hle.trans (h.trans (hv.opening.trans hv.inner))))
    · rintro (⟨hlt, -⟩ | ⟨hlt, -⟩)
      · exact absurd hlt (not_lt.2 h)
      · exact absurd hlt (not_lt.2 (h.trans (hv.opening.trans hv.inner)))
  · refine ⟨?_, ?_⟩
    · rintro (⟨-, hlt⟩ | ⟨hlt, -⟩)
      · exact absurd hlt (not_lt.2 h₁)
      · exact absurd hlt (not_lt.2 (hle.trans h₂))
    · rintro (⟨-, hlt⟩ | ⟨hlt, -⟩)
      · exact absurd hlt (not_lt.2 (h₁.trans hle))
      · exact absurd hlt (not_lt.2 h₂)
  · have hstart := hw.opening.trans h₁
    have hstop := h₂.trans hw.closing
    refine ⟨?_, ?_⟩
    · rintro (⟨hlt, -⟩ | ⟨hlt, -⟩)
      · exact absurd hlt (not_lt.2 hstart)
      · exact absurd hlt (not_lt.2 (hstart.trans (hv.opening.trans hv.inner)))
    · rintro (⟨-, hlt⟩ | ⟨-, hlt⟩)
      · exact absurd (hlt.trans_le (hv.inner.trans hv.closing)) (not_lt.2 hstop)
      · exact absurd hlt (not_lt.2 hstop)

theorem Clear.widen (h : Clear ws r) (hnests : ∀ v ∈ ws, v.Nests w ∨ v = w)
    (hordered : ∀ v ∈ ws, v.Ordered) (hw : w ∈ ws) : Clear ws (widen r w) := by
  have hown : ∀ v ∈ ws, ¬v.Cut w.start ∧ ¬v.Cut w.stop := by
    intro v hv
    rcases hnests v hv with hn | rfl
    · exact hn.not_cut (hordered v hv) (hordered w hw)
    · have ho := hordered v hv
      refine ⟨?_, ?_⟩
      · rintro (⟨hlt, -⟩ | ⟨hlt, -⟩)
        · exact lt_irrefl _ hlt
        · exact absurd hlt (not_lt.2 (ho.opening.trans ho.inner))
      · rintro (⟨-, hlt⟩ | ⟨-, hlt⟩)
        · exact absurd hlt (not_lt.2 (ho.inner.trans ho.closing))
        · exact lt_irrefl _ hlt
  intro v hv
  refine ⟨?_, ?_⟩
  · rcases min_choice r.1 w.start with hmin | hmin
    · exact fun hcut => (h v hv).1 (hmin ▸ hcut)
    · exact fun hcut => (hown v hv).1 (hmin ▸ hcut)
  · rcases max_choice r.2 w.stop with hmax | hmax
    · exact fun hcut => (h v hv).2 (hmax ▸ hcut)
    · exact fun hcut => (hown v hv).2 (hmax ▸ hcut)

/-- A delimiter that is lacking is next to an end of the range. -/
theorem Strands.ends (h : Strands r w) (hcut : ¬w.Cut r.1 ∧ ¬w.Cut r.2) :
    (w.start < r.1 → r.1 = w.innerStart) ∧ (r.2 < w.stop → r.2 = w.innerStop) := by
  refine ⟨fun hlt => h.1.antisymm (not_lt.1 fun hin => hcut.1 (Or.inl ⟨hlt, hin⟩)),
    fun hlt => (not_lt.1 fun hin => hcut.2 (Or.inr ⟨hin, hlt⟩)).antisymm h.2.1⟩

/-- A stranded wrap touches an end of the range from inside. -/
theorem Strands.touches (h : Strands r w) (hcut : ¬w.Cut r.1 ∧ ¬w.Cut r.2) :
    r.1 = w.innerStart ∨ r.2 = w.innerStop := by
  by_contra hnot
  rw [not_or] at hnot
  obtain ⟨hstart, hstop⟩ := h.ends hcut
  exact h.2.2 ⟨not_lt.1 fun hlt => hnot.1 (hstart hlt), not_lt.1 fun hlt => hnot.2 (hstop hlt)⟩

/-- Where the wraps that touch the ends are not stranded, none is. -/
theorem Clear.whole (h : Clear ws r)
    (htouch : ∀ w ∈ ws, r.1 = w.innerStart ∨ r.2 = w.innerStop → ¬Strands r w) : Whole ws r :=
  fun w hw hs => htouch w hw (hs.touches (h w hw)) hs

/-- What a widening adds is in a delimiter. -/
theorem Strands.mem_widen (h : Strands r w) (hcut : ¬w.Cut r.1 ∧ ¬w.Cut r.2)
    (hx : (Widening.widen r w).1 ≤ x) (hx' : x < (Widening.widen r w).2) :
    r.1 ≤ x ∧ x < r.2 ∨ w.start ≤ x ∧ x < w.innerStart ∨ w.innerStop ≤ x ∧ x < w.stop := by
  obtain ⟨hstart, hstop⟩ := h.ends hcut
  rcases lt_or_ge x r.1 with hlt | hge
  · have hle : w.start ≤ x := (min_le_iff.1 hx).resolve_left (not_le.2 hlt)
    exact Or.inr (Or.inl ⟨hle, (hstart (hle.trans_lt hlt)) ▸ hlt⟩)
  · rcases lt_or_ge x r.2 with hlt | hge'
    · exact Or.inl ⟨hge, hlt⟩
    · have hlt : x < w.stop := (lt_max_iff.1 hx').resolve_left (not_lt.2 hge')
      exact Or.inr (Or.inr ⟨(hstop (hge'.trans_lt hlt)) ▸ hge', hlt⟩)

/-- A range that is widened from one with no end inside a delimiter has none either, is within
    every range that has the first one and strands nothing, and what it has more is in the
    delimiters of wraps whose inside it has. -/
theorem widens_spec (hnests : ∀ w ∈ os, ∀ v ∈ ws, v.Nests w ∨ v = w)
    (hordered : ∀ v ∈ ws, v.Ordered) (hsub : os ⊆ ws) (hclear : Clear ws r)
    (h : Relation.ReflTransGen (Widens os) r r') :
    Clear ws r' ∧ Within r r' ∧ (∀ r'', Whole os r'' → Within r r'' → Within r' r'') ∧
      ∀ x, r'.1 ≤ x → x < r'.2 → r.1 ≤ x ∧ x < r.2 ∨ ∃ w ∈ os, r'.1 ≤ w.innerStart ∧
        w.innerStop ≤ r'.2 ∧ (w.start ≤ x ∧ x < w.innerStart ∨ w.innerStop ≤ x ∧ x < w.stop) := by
  induction h with
  | refl => exact ⟨hclear, Within.refl r, fun _ _ h => h, fun x hx hx' => Or.inl ⟨hx, hx'⟩⟩
  | @tail b c _ hstep ih =>
    obtain ⟨hb, hwithin, hleast, hadded⟩ := ih
    obtain ⟨w, hw, hs, rfl⟩ := hstep
    have hgrown := within_widen b w
    refine ⟨hb.widen (hnests w hw) hordered (hsub hw), hwithin.trans hgrown,
      fun r'' hwhole hr => widen_within hs (hwhole w hw) (hleast r'' hwhole hr), ?_⟩
    intro x hx hx'
    rcases hs.mem_widen (hb w (hsub hw)) hx hx' with ⟨hge, hlt⟩ | hdelim
    · refine (hadded x hge hlt).imp_right fun ⟨v, hv, h₁, h₂, h₃⟩ =>
        ⟨v, hv, hgrown.1.trans h₁, h₂.trans hgrown.2, h₃⟩
    · exact Or.inr ⟨w, hw, hgrown.1.trans hs.1, hs.2.1.trans hgrown.2, hdelim⟩

/-- What holds of the ends of the first range and of the wraps holds of the ends of the last. -/
theorem widens_ends {P : α → Prop} (hP : ∀ w ∈ os, P w.start ∧ P w.stop) (hr : P r.1 ∧ P r.2)
    (h : Relation.ReflTransGen (Widens os) r r') : P r'.1 ∧ P r'.2 := by
  induction h with
  | refl => exact hr
  | @tail b c _ hstep ih =>
    obtain ⟨w, hw, -, rfl⟩ := hstep
    constructor
    · rw [widen]
      rcases min_choice b.1 w.start with h | h
      · exact h.symm ▸ ih.1
      · exact h.symm ▸ (hP w hw).1
    · rw [widen]
      rcases max_choice b.2 w.stop with h | h
      · exact h.symm ▸ ih.2
      · exact h.symm ▸ (hP w hw).2

end Widening

end Flark
