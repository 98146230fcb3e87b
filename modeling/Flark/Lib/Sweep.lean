import Mathlib.Order.MinMax
import Mathlib.Data.List.Basic

/-!
# Sweeping points over spans

Half-open spans `[p.1, p.2)` are *swept* by a cursor that takes in turn, at every
point, the spans that start no later than it, and keeps how far those taken reach
(`advance`): a point below the reach is taken to be covered. The cursor never goes
back, so this is only right if no new point lies below one already visited
(`Climbs`).

* `sweep_covered`: in a sweep over climbing points, a point below the reach is in
  one of the spans — whether or not these are sorted: unsorted, the sweep only
  covers less;
* `climbs_flatMap_range'`: the points of ranges in order of their starts climb,
  also if the ranges overlap.
-/

namespace Sweep

variable {α : Type*} [LinearOrder α]

/-- The point `x` is in one of the half-open `spans`. -/
def Covered (spans : List (α × α)) (x : α) : Prop := ∃ p ∈ spans, p.1 ≤ x ∧ x < p.2

instance (spans : List (α × α)) (x : α) : Decidable (Covered spans x) :=
  inferInstanceAs (Decidable (∃ p ∈ spans, _))

/-- Move the cursor to `x`: take the next spans while they start no later than it.
    The result is what is left of the spans, and the reach. -/
def advance (x : α) : List (α × α) → α → List (α × α) × α
  | [], reach => ([], reach)
  | p :: spans, reach =>
    if p.1 ≤ x then advance x spans (max reach p.2) else (p :: spans, reach)

theorem advance_suffix (x : α) (spans : List (α × α)) (reach : α) :
    (advance x spans reach).1 <:+ spans := by
  induction spans generalizing reach with
  | nil => exact List.suffix_rfl
  | cons p spans ih =>
    rw [advance]
    split
    · exact (ih _).trans (List.suffix_cons p spans)
    · exact List.suffix_rfl

/-- What the cursor knows after the points `seen`: whatever is not below one of them,
    and below the reach, is covered. -/
def Reaches (spans : List (α × α)) (seen : List α) (reach : α) : Prop :=
  ∀ y, (∀ z ∈ seen, z ≤ y) → y < reach → Covered spans y

theorem Reaches.advance {spans : List (α × α)} {seen : List α} {x : α} :
    ∀ {rest : List (α × α)} {reach : α}, rest ⊆ spans → Reaches spans seen reach →
      Reaches spans (x :: seen) (advance x rest reach).2
  | [], _, _, h => fun y hy => h y fun z hz => hy z (List.mem_cons_of_mem _ hz)
  | p :: rest, reach, hsub, h => by
    rw [Sweep.advance]
    split
    · next hp =>
      refine fun y hy => @Reaches.advance spans (x :: seen) x rest (max reach p.2)
        (fun q hq => hsub (List.mem_cons_of_mem _ hq)) (fun z hz hlt => ?_) y ?_
      · -- The span taken covers what it reaches from `x` on.
        rcases lt_max_iff.1 hlt with hlt | hlt
        · exact h z (fun w hw => hz w (List.mem_cons_of_mem _ hw)) hlt
        · exact ⟨p, hsub List.mem_cons_self, hp.trans (hz x List.mem_cons_self), hlt⟩
      · exact List.forall_mem_cons.2 ⟨hy x List.mem_cons_self, hy⟩
    · exact fun y hy => h y fun z hz => hy z (List.mem_cons_of_mem _ hz)

/-- The points `xs` climb after the points `seen`: each is either not below any earlier
    one or one of them. -/
def Climbs : (seen : List α) → (xs : List α) → Prop
  | _, [] => True
  | seen, x :: xs => ((∀ y ∈ seen, y ≤ x) ∨ x ∈ seen) ∧ Climbs (x :: seen) xs

theorem climbs_append {seen xs ys : List α} :
    Climbs seen (xs ++ ys) ↔ Climbs seen xs ∧ Climbs (xs.reverse ++ seen) ys := by
  induction xs generalizing seen with
  | nil => simp [Climbs]
  | cons x xs ih =>
    simp only [List.cons_append, Climbs, ih, List.reverse_cons, List.append_assoc,
      List.nil_append, and_assoc]

/-- One step of a sweep: at the next of climbing points, if the earlier ones are good
    wherever the cursor skipped them, the point is below the reach only if it is covered
    or was met before. -/
theorem sweep_covered {spans rest : List (α × α)} {seen : List α} {x reach : α}
    (hsub : rest ⊆ spans) (h : Reaches spans seen reach)
    (hx : (∀ y ∈ seen, y ≤ x) ∨ x ∈ seen) (hlt : x < (advance x rest reach).2) :
    Covered spans x ∨ x ∈ seen := by
  rcases hx with hx | hx
  · exact Or.inl (h.advance hsub x (List.forall_mem_cons.2 ⟨le_rfl, hx⟩) hlt)
  · exact Or.inr hx

/-! ## Points of ranges -/

/-- Every point between `s` and a point of `seen` is one too. -/
def ClosedAbove (s : ℕ) (seen : List ℕ) : Prop := ∀ z ∈ seen, ∀ w, s ≤ w → w ≤ z → w ∈ seen

theorem ClosedAbove.mono {s t : ℕ} {seen : List ℕ} (h : ClosedAbove s seen) (hst : s ≤ t) :
    ClosedAbove t seen :=
  fun z hz w hw => h z hz w (hst.trans hw)

theorem ClosedAbove.climbs_range' {s n : ℕ} {seen : List ℕ} (h : ClosedAbove s seen) :
    Climbs seen (List.range' s n) ∧ ClosedAbove s ((List.range' s n).reverse ++ seen) := by
  induction n with
  | zero => simpa [Climbs] using h
  | succ n ih =>
    obtain ⟨hclimbs, hclosed⟩ := ih
    rw [List.range'_concat, climbs_append, Nat.one_mul]
    refine ⟨⟨hclimbs, ?_, trivial⟩, ?_⟩
    · by_cases hmem : s + n ∈ (List.range' s n).reverse ++ seen
      · exact Or.inr hmem
      · -- Were an earlier point above `s + n`, closure would make `s + n` an earlier one.
        refine Or.inl fun y hy => ?_
        by_contra hlt
        exact hmem (hclosed y hy _ (by omega) (by omega))
    · intro z hz w hsw hwz
      simp only [List.reverse_append, List.reverse_cons, List.reverse_nil, List.nil_append,
        List.cons_append, List.mem_cons] at hz ⊢
      rcases hz with rfl | hz
      · rcases Nat.lt_or_ge w (s + n) with hlt | hge
        · refine Or.inr (List.mem_append_left _ ?_)
          rw [List.mem_reverse, List.mem_range'_1]
          omega
        · exact Or.inl (by omega)
      · exact Or.inr (hclosed z hz w hsw hwz)

/-- The points of ranges `[start, start + length)` in order of their starts climb. -/
theorem ClosedAbove.climbs_flatMap_range' {s : ℕ} {seen : List ℕ} :
    ∀ {l : List (ℕ × ℕ)}, ClosedAbove s seen → (∀ r ∈ l, s ≤ r.1) →
      (l.Pairwise fun r r' => r.1 ≤ r'.1) →
      Climbs seen (l.flatMap fun r => List.range' r.1 r.2)
  | [], _, _, _ => trivial
  | r :: l, h, hs, hl => by
    obtain ⟨hr, hl⟩ := List.pairwise_cons.1 hl
    obtain ⟨hclimbs, hclosed⟩ := (h.mono (hs r List.mem_cons_self)).climbs_range' (n := r.2)
    rw [List.flatMap_cons, climbs_append]
    exact ⟨hclimbs, climbs_flatMap_range' hclosed hr hl⟩

end Sweep
