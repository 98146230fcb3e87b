import Flark.Kernel.Emptying
import Flark.Kernel.Press

/-!
# Hidden intervals

The walk over the runs of a document (`_runPairs` of `kernel/document.dart`) puts closing delimiters
off until it is past what they close. It loses none of them, whether or not the runs nest; merged
with the other lists, their interiors are kept, and a range is widened to the least one that has no
end in an interior.

* `Projection.hiddenPairs_perm`: the walk emits what is not empty, and nothing twice;
* `expandAtomic_spec`: the least range with both ends outside;
* `Document.hiddenIntervals_spec`: the walk, the merge and the widening together.
-/

namespace Flark

open Widening

namespace Projection

section

variable {m : RenderModel}

/-- What a run hides that is not empty. -/
def hiddenOf (m : RenderModel) (r : Nat) : List (Int × Int) :=
  [openingOf m r, closingOf m r].filter fun x => x.1 < x.2

theorem addByStart_list (ps : Pairs) (x : Int × Int) :
    (ps.addByStart x).list = ps.list ++ [x] := rfl

/-- A flush moves what was pending. -/
theorem flush_perm (position : Int) (pending : List (Int × Int)) (hidden : Pairs) :
    ((flush position pending hidden).1 ++ (flush position pending hidden).2.list).Perm
      (pending ++ hidden.list) := by
  induction pending generalizing hidden with
  | nil => exact List.Perm.refl _
  | cons q pending ih =>
    rw [flush]
    split
    · refine (ih _).trans ?_
      rw [addByStart_list, ← List.append_assoc]
      exact List.perm_append_singleton q _
    · exact List.Perm.refl _

/-- The walk over the first runs has what they hide, emitted or pending. -/
theorem walkTo_perm (n : Nat) :
    ((walkTo m n).pending ++ (walkTo m n).hidden.list).Perm
      ((List.range n).flatMap (hiddenOf m)) := by
  induction n with
  | zero => exact List.Perm.refl _
  | succ n ih =>
    rw [List.range_succ, List.flatMap_append, List.flatMap_singleton]
    refine List.Perm.trans ?_ (ih.append_right _)
    have hflush := flush_perm (m.runStart n) (walkTo m n).pending (walkTo m n).hidden
    refine List.Perm.trans ?_ (hflush.append_right _)
    rw [walkTo_succ, runStep]
    dsimp only
    generalize flush (m.runStart n) (walkTo m n).pending (walkTo m n).hidden = flushed
    -- An opening is emitted at once and a closing is left pending, each if it hides anything.
    have hopen : (if (m.runStart n : Int) < m.runContentStart n then
        flushed.2.addByStart (openingOf m n) else flushed.2).list =
        flushed.2.list ++ [openingOf m n].filter fun x => x.1 < x.2 := by
      by_cases hlt : (openingOf m n).1 < (openingOf m n).2
      · rw [List.filter_cons_of_pos (by exact decide_eq_true hlt), List.filter_nil,
          ← addByStart_list]
        exact congrArg Pairs.list (if_pos hlt)
      · rw [List.filter_cons_of_neg (by simpa using hlt), List.filter_nil, List.append_nil]
        exact congrArg Pairs.list (if_neg hlt)
    have hclose : (if (m.runContentEnd n : Int) < m.runEnd n then
        closingOf m n :: flushed.1 else flushed.1) =
        ([closingOf m n].filter fun x => x.1 < x.2) ++ flushed.1 := by
      by_cases hlt : (closingOf m n).1 < (closingOf m n).2
      · rw [List.filter_cons_of_pos (by exact decide_eq_true hlt), List.filter_nil,
          List.singleton_append]
        exact if_pos hlt
      · rw [List.filter_cons_of_neg (by simpa using hlt), List.filter_nil, List.nil_append]
        exact if_neg hlt
    have hboth : hiddenOf m n = ([openingOf m n].filter fun x => x.1 < x.2) ++
        [closingOf m n].filter fun x => x.1 < x.2 := by
      rw [hiddenOf, ← List.filter_append, List.singleton_append]
    refine (List.Perm.of_eq (congrArg₂ _ hclose hopen)).trans ?_
    rw [hboth, List.append_assoc, ← List.append_assoc flushed.1, ← List.append_assoc _ _
      (List.filter _ [closingOf m n])]
    exact List.perm_append_comm

end

/-- The hidden intervals of the runs are sorted by start and are what the runs hide, each as often
    as they hide it. -/
theorem hiddenPairs_perm {p : Projection}
    (hends : ∀ r < p.model.runCount, p.model.runContentEnd r ≤ p.source.length) :
    p.hiddenPairs.Perm ((List.range p.model.runCount).flatMap (hiddenOf p.model)) := by
  have hpending : ∀ q ∈ p.runWalk.pending, q.1 ≤ p.source.length := by
    intro q hq
    obtain ⟨r, hr, hx⟩ := pending_walkTo hq
    have := hends r hr
    omega
  have hordered : p.hiddenPairs.Perm
      (flush p.source.length p.runWalk.pending p.runWalk.hidden).2.list := by
    rw [hiddenPairs, Pairs.ordered]
    split
    · exact List.Perm.refl _
    · exact List.perm_insertionSort _ _
  have hflush := flush_perm p.source.length p.runWalk.pending p.runWalk.hidden
  rw [flush_eq_nil hpending, List.nil_append] at hflush
  exact hordered.trans (hflush.trans (walkTo_perm p.model.runCount))

end Projection

/-! ## Widening -/

/-- The range widened to have no end strictly inside an interval: the least such range that has it
    whole. -/
structure AtomicRange (l : List (Int × Int)) (start stop : Int) (range : Int × Int) : Prop where
  within : Within (start, stop) range
  start_outside : ¬Intervals.StrictlyInside range.1 l
  stop_outside : ¬Intervals.StrictlyInside range.2 l
  least : ∀ range', Within (start, stop) range' → ¬Intervals.StrictlyInside range'.1 l →
    ¬Intervals.StrictlyInside range'.2 l → Within range range'

/-- An end of the widened range is where it was or an end of an interval. -/
theorem expandAtomic_ends (l : List (Int × Int)) (start stop : Int) :
    ((expandAtomic l start stop).1 = start ∨ ∃ q ∈ l, (expandAtomic l start stop).1 = q.1) ∧
    ((expandAtomic l start stop).2 = stop ∨
      ∃ q ∈ l, q.1 < q.2 ∧ (expandAtomic l start stop).2 = q.2) := by
  induction l generalizing start stop with
  | nil => exact ⟨Or.inl rfl, Or.inl rfl⟩
  | cons x l ih =>
    obtain ⟨a, b⟩ := x
    rw [expandAtomic]
    split
    · exact ⟨Or.inl rfl, Or.inl rfl⟩
    · obtain ⟨hstart, hstop⟩ := ih (if a < start ∧ start < b then a else start)
        (if a < stop ∧ stop < b then b else stop)
      generalize expandAtomic l _ _ = range at hstart hstop ⊢
      refine ⟨?_, ?_⟩
      · rcases hstart with h | ⟨q, hq, h⟩
        · split_ifs at h with hin
          · exact Or.inr ⟨(a, b), List.mem_cons_self, h⟩
          · exact Or.inl h
        · exact Or.inr ⟨q, List.mem_cons_of_mem _ hq, h⟩
      · rcases hstop with h | ⟨q, hq, hlt, h⟩
        · split_ifs at h with hin
          · exact Or.inr ⟨(a, b), List.mem_cons_self, hin.1.trans hin.2, h⟩
          · exact Or.inl h
        · exact Or.inr ⟨q, List.mem_cons_of_mem _ hq, hlt, h⟩

/-- Over intervals that do not overlap one pass is enough. -/
theorem expandAtomic_spec {l : List (Int × Int)} (hl : Intervals.ByStart l)
    (happart : Intervals.Apart false l) {start stop : Int} (hle : start ≤ stop) :
    AtomicRange l start stop (expandAtomic l start stop) := by
  induction l generalizing start stop with
  | nil => exact ⟨⟨le_rfl, le_rfl⟩, by simp, by simp, fun _ h _ _ => h⟩
  | cons x l ih =>
    obtain ⟨a, b⟩ := x
    obtain ⟨hfirst, hl⟩ := List.pairwise_cons.1 hl
    obtain ⟨hbefore, happart⟩ := List.pairwise_cons.1 happart
    have hafter : ∀ q ∈ l, b ≤ q.1 := fun q hq => by
      have := hbefore q hq
      rwa [Intervals.joins_false, not_lt] at this
    rw [expandAtomic]
    split
    · next hpast =>
      -- All intervals start behind the range.
      have houtside {o : Int} (ho : o ≤ stop) : ¬Intervals.StrictlyInside o ((a, b) :: l) := by
        rintro ⟨q, hq, hlt, -⟩
        rcases List.mem_cons.1 hq with rfl | hq
        · omega
        · have := hfirst q hq
          dsimp only at this
          omega
      exact ⟨⟨le_rfl, le_rfl⟩, houtside hle, houtside le_rfl, fun _ h _ _ => h⟩
    · next hreach =>
      obtain ⟨hstart, hstop⟩ := expandAtomic_ends l
        (if a < start ∧ start < b then a else start) (if a < stop ∧ stop < b then b else stop)
      obtain ⟨hwithin, hstart', hstop', hleast⟩ := @ih hl happart
        (if a < start ∧ start < b then a else start) (if a < stop ∧ stop < b then b else stop)
        (by split_ifs <;> omega)
      generalize expandAtomic l _ _ = range at hstart hstop hwithin hstart' hstop' hleast ⊢
      obtain ⟨hwithin₁, hwithin₂⟩ := hwithin
      refine ⟨⟨hwithin₁.trans ?_, le_trans ?_ hwithin₂⟩, ?_, ?_, fun range' h h₁ h₂ => ?_⟩
      · dsimp only
        split_ifs <;> omega
      · dsimp only
        split_ifs <;> omega
      · rw [Intervals.strictlyInside_cons, not_or]
        refine ⟨?_, hstart'⟩
        rcases hstart with h | ⟨q, hq, h⟩
        · split_ifs at h <;> omega
        · have := hafter q hq
          omega
      · rw [Intervals.strictlyInside_cons, not_or]
        refine ⟨?_, hstop'⟩
        rcases hstop with h | ⟨q, hq, hlt, h⟩
        · split_ifs at h <;> omega
        · have := hafter q hq
          omega
      · rw [Intervals.strictlyInside_cons, not_or] at h₁ h₂
        obtain ⟨hle₁, hle₂⟩ := h
        dsimp only at hle₁ hle₂
        have hin₁ := h₁.1
        have hin₂ := h₂.1
        dsimp only at hin₁ hin₂
        refine hleast range' ⟨?_, ?_⟩ h₁.2 h₂.2
        · dsimp only
          split_ifs <;> omega
        · dsimp only
          split_ifs <;> omega

/-- The hidden intervals of a document are complete and sorted; a merge of sorted lists keeps their
    interiors and overlaps nowhere; and a range is widened to the least one that has no end strictly
    inside a merged interval. -/
theorem Document.hiddenIntervals_spec {gs : Graphemes} {d : Document}
    (hends : ∀ r < d.model.runCount, d.model.runContentEnd r ≤ d.source.length) :
    (Intervals.ByStart d.projection.hiddenPairs ∧
      d.projection.hiddenPairs.Perm
        ((List.range d.model.runCount).flatMap (Projection.hiddenOf d.model))) ∧
    (∀ sources : List (List (Int × Int)), (∀ s ∈ sources, Intervals.ByStart s) →
      Intervals.ByStart (Intervals.merge false sources) ∧
      Intervals.Apart false (Intervals.merge false sources) ∧
      ∀ x, Intervals.StrictlyInside x (Intervals.merge false sources) ↔
        ∃ s ∈ sources, Intervals.StrictlyInside x s) ∧
    ((∀ r < d.model.runCount, ∀ q < r, d.model.runStart q ≤ d.model.runStart r) →
      ∀ start stop, start ≤ stop → AtomicRange (d.projection.blockedPairs gs) start stop
        (d.expandAtomicRange gs start stop)) := by
  refine ⟨⟨Pairs.byStart_ordered _, Projection.hiddenPairs_perm hends⟩, fun sources hs => ?_,
    fun horder start stop hle => ?_⟩
  · obtain ⟨hsorted, hapart⟩ := Intervals.sorted_merge hs
    exact ⟨hsorted, hapart, fun x => Intervals.strictlyInside_merge hs⟩
  · have hs : ∀ s ∈ [d.projection.hiddenPairs, d.projection.escapePairs,
        d.projection.rowAtomicPairs gs], Intervals.ByStart s := by
      simp only [List.forall_mem_cons]
      exact ⟨Pairs.byStart_ordered _, Projection.byStart_escapes_walkTo horder,
        Pairs.byStart_ordered _, fun _ h => absurd h List.not_mem_nil⟩
    obtain ⟨hsorted, hapart⟩ := Intervals.sorted_merge hs
    exact expandAtomic_spec hsorted hapart hle

/-- A range with its ends inside the delimiters of a word takes them in whole. -/
theorem Document.hiddenIntervals_spec_accented :
    Intervals.ByStart Document.accented.projection.hiddenPairs ∧
    AtomicRange (Document.accented.projection.blockedPairs .marks) 1 4
      (Document.accented.expandAtomicRange .marks 1 4) := by
  obtain ⟨⟨hsorted, -⟩, -, hrange⟩ := @Document.hiddenIntervals_spec .marks Document.accented
    (by decide)
  exact ⟨hsorted, hrange (by decide) 1 4 (by decide)⟩

example : Document.accented.expandAtomicRange .marks 1 4 = (0, 5) := by
  decide

end Flark
