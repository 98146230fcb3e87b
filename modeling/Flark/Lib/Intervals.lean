import Mathlib.Data.List.Sort
import Mathlib.Order.MinMax
import Mathlib.Tactic.Common

/-!
# Lists of intervals

Intervals of a linear order as pairs of ends, in lists sorted by start. Several lists are
merged into one by always taking the least head, and joining it to the interval before it
when the two overlap (or touch, when the intervals are to be closed).

* `strictlyInside_merge`, `inside_merge`: what lies in the open, or the closed, intervals of
  the merged list lies in those of the lists;
* `sorted_merge`: a merge that joins what overlaps is sorted and overlaps nowhere;
* `apart_merge`: the intervals of the merged list do not overlap, or do not even touch;
* `strictlyInside_iff_head`, `inside_iff_head`: a cursor that passed the intervals that end
  before a point decides by the next one;
* `strictlyInside_iff_find`: so does a search for the first interval that starts at or after it.
-/

namespace Intervals

variable {α : Type*} [LinearOrder α]

/-- The point lies strictly inside an interval of the list. -/
def StrictlyInside (x : α) (l : List (α × α)) : Prop := ∃ p ∈ l, p.1 < x ∧ x < p.2

/-- The point lies in an interval of the list, ends included. -/
def Inside (x : α) (l : List (α × α)) : Prop := ∃ p ∈ l, p.1 ≤ x ∧ x ≤ p.2

/-- The intervals of the list are sorted by start. -/
def ByStart (l : List (α × α)) : Prop := l.Pairwise fun p q => p.1 ≤ q.1

/-- Whether the interval `p`, which starts no earlier than `q`, is joined to it: when the two
    overlap, or when they touch and `touching` is set. -/
def Joins (touching : Bool) (p q : α × α) : Prop := p.1 < q.2 ∨ touching ∧ p.1 = q.2

/-- No two intervals of the list are to be joined: each ends before the next one starts, or,
    unless `touching` is set, where it starts. -/
def Apart (touching : Bool) (l : List (α × α)) : Prop := l.Pairwise fun p q => ¬Joins touching q p

/-- The intervals of the list do not end before they start. -/
def Forward (l : List (α × α)) : Prop := ∀ p ∈ l, p.1 ≤ p.2

instance (x : α) (l : List (α × α)) : Decidable (StrictlyInside x l) :=
  inferInstanceAs (Decidable (∃ p ∈ l, _))

instance (x : α) (l : List (α × α)) : Decidable (Inside x l) :=
  inferInstanceAs (Decidable (∃ p ∈ l, _))

@[simp] theorem not_strictlyInside_nil (x : α) : ¬StrictlyInside x [] := by
  simp [StrictlyInside]

@[simp] theorem not_inside_nil (x : α) : ¬Inside x [] := by
  simp [Inside]

@[simp] theorem strictlyInside_cons {x : α} {p : α × α} {l : List (α × α)} :
    StrictlyInside x (p :: l) ↔ (p.1 < x ∧ x < p.2) ∨ StrictlyInside x l := by
  simp [StrictlyInside]

@[simp] theorem inside_cons {x : α} {p : α × α} {l : List (α × α)} :
    Inside x (p :: l) ↔ (p.1 ≤ x ∧ x ≤ p.2) ∨ Inside x l := by
  simp [Inside]

/-- Being strictly inside depends on the members only. -/
theorem strictlyInside_congr {x : α} {l l' : List (α × α)} (h : ∀ p, p ∈ l ↔ p ∈ l') :
    StrictlyInside x l ↔ StrictlyInside x l' := by
  simp only [StrictlyInside, h]

/-- Being inside depends on the members only. -/
theorem inside_congr {x : α} {l l' : List (α × α)} (h : ∀ p, p ∈ l ↔ p ∈ l') :
    Inside x l ↔ Inside x l' := by
  simp only [Inside, h]

/-! ## Sorting -/

/-- By start, then by end. -/
def Before (p q : α × α) : Prop := p.1 < q.1 ∨ p.1 = q.1 ∧ p.2 < q.2

instance (p q : α × α) : Decidable (Before p q) := inferInstanceAs (Decidable (_ ∨ _))

/-- By start, then by end, or equal. -/
def NotAfter (p q : α × α) : Prop := ¬Before q p

instance (p q : α × α) : Decidable (NotAfter p q) := inferInstanceAs (Decidable (¬_))

theorem NotAfter.start_le {p q : α × α} (h : NotAfter p q) : p.1 ≤ q.1 :=
  not_lt.1 fun hlt => h (Or.inl hlt)

theorem notAfter_iff {p q : α × α} : NotAfter p q ↔ p.1 < q.1 ∨ p.1 = q.1 ∧ p.2 ≤ q.2 := by
  unfold NotAfter Before
  rcases lt_trichotomy p.1 q.1 with h | h | h
  · simp [h, h.not_gt, h.ne']
  · simp [h]
  · simp [h, h.not_gt, h.ne']

/-- The intervals sorted by start, then by end. -/
def sort (l : List (α × α)) : List (α × α) := l.insertionSort NotAfter

theorem mem_sort {l : List (α × α)} {p : α × α} : p ∈ sort l ↔ p ∈ l :=
  List.mem_insertionSort _

/-- Sorting sorts by the starts. -/
theorem byStart_sort (l : List (α × α)) : ByStart (sort l) := by
  have : Std.Total (NotAfter : α × α → α × α → Prop) :=
    ⟨fun p q => by
      rw [notAfter_iff, notAfter_iff]
      rcases lt_trichotomy p.1 q.1 with h | h | h
      · exact Or.inl (Or.inl h)
      · exact (le_total p.2 q.2).imp (fun h' => Or.inr ⟨h, h'⟩) fun h' => Or.inr ⟨h.symm, h'⟩
      · exact Or.inr (Or.inl h)⟩
  have : IsTrans (α × α) NotAfter :=
    ⟨fun p q r hpq hqr => by
      rw [notAfter_iff] at hpq hqr ⊢
      rcases hpq with h | ⟨h, h'⟩
      · rcases hqr with k | ⟨k, _⟩
        · exact Or.inl (h.trans k)
        · exact Or.inl (k ▸ h)
      · rcases hqr with k | ⟨k, k'⟩
        · exact Or.inl (h ▸ k)
        · exact Or.inr ⟨h.trans k, h'.trans k'⟩⟩
  exact (List.pairwise_insertionSort NotAfter l).imp fun h => h.start_le

/-! ## Merging -/

/-- Take the least head of the lists, the first of the least ones. -/
def pick : List (List (α × α)) → Option ((α × α) × List (List (α × α)))
  | [] => none
  | [] :: rest => (pick rest).map fun (q, rest) => (q, [] :: rest)
  | (p :: s) :: rest =>
    match pick rest with
    | none => some (p, s :: rest)
    | some (q, rest') => if Before q p then some (q, (p :: s) :: rest') else some (p, s :: rest)

instance (touching : Bool) (p q : α × α) : Decidable (Joins touching p q) :=
  inferInstanceAs (Decidable (_ ∨ _))

theorem joins_false {p q : α × α} : Joins false p q ↔ p.1 < q.2 := by
  simp [Joins]

theorem joins_true {p q : α × α} : Joins true p q ↔ p.1 ≤ q.2 := by
  simp [Joins, le_iff_lt_or_eq]

/-- Join an interval to the last one of those merged, which come last first, or add it. -/
def join (touching : Bool) (p : α × α) : List (α × α) → List (α × α)
  | [] => [p]
  | q :: merged =>
    if Joins touching p q then (q.1, max q.2 p.2) :: merged else p :: q :: merged

/-- The loop of the merge; the fuel bounds the intervals left. -/
def mergeFrom (touching : Bool) :
    (fuel : Nat) → List (List (α × α)) → (merged : List (α × α)) → List (α × α)
  | 0, _, merged => merged.reverse
  | fuel + 1, sources, merged =>
    match pick sources with
    | none => merged.reverse
    | some (p, sources) => mergeFrom touching fuel sources (join touching p merged)

/-- The lists merged into one. -/
def merge (touching : Bool) (sources : List (List (α × α))) : List (α × α) :=
  mergeFrom touching sources.flatten.length sources []

/-- Nothing is picked where nothing is left. -/
theorem pick_none {sources : List (List (α × α))} (h : pick sources = none) :
    sources.flatten = [] := by
  induction sources with
  | nil => rfl
  | cons s rest ih =>
    cases s with
    | nil => exact ih (Option.map_eq_none_iff.1 h)
    | cons p s =>
      rw [pick] at h
      split at h
      · cases h
      · split at h <;> cases h

/-- The interval picked starts first, and the others are left. -/
theorem pick_spec {sources sources' : List (List (α × α))} {p : α × α}
    (h : pick sources = some (p, sources')) (hs : ∀ s ∈ sources, ByStart s) :
    sources.flatten.Perm (p :: sources'.flatten) ∧ (∀ s ∈ sources', ByStart s) ∧
      ∀ q ∈ sources'.flatten, p.1 ≤ q.1 := by
  -- By induction on the sources: the head of the first is compared with what is picked of the
  -- others.
  induction sources generalizing sources' p with
  | nil => cases h
  | cons s rest ih =>
    have hrest : ∀ t ∈ rest, ByStart t := fun t ht => hs t (List.mem_cons_of_mem _ ht)
    cases s with
    | nil =>
      rw [pick] at h
      obtain ⟨⟨q, rest'⟩, hpick, heq⟩ := Option.map_eq_some_iff.1 h
      cases heq
      obtain ⟨hperm, hsorted, hleast⟩ := ih hpick hrest
      exact ⟨hperm, List.forall_mem_cons.2 ⟨List.Pairwise.nil, hsorted⟩, hleast⟩
    | cons head s =>
      have hhead := List.pairwise_cons.1 (hs _ List.mem_cons_self)
      rw [pick] at h
      split at h
      · next hnone =>
        cases h
        refine ⟨List.Perm.refl _, List.forall_mem_cons.2 ⟨hhead.2, hrest⟩, fun q hq => ?_⟩
        rw [List.flatten_cons, pick_none hnone, List.append_nil] at hq
        exact hhead.1 q hq
      · next q rest' hpick =>
        obtain ⟨hperm, hsorted, hleast⟩ := ih hpick hrest
        split at h
        · next hbefore =>
          obtain ⟨rfl, rfl⟩ := Prod.mk.injEq .. ▸ Option.some_inj.1 h
          refine ⟨?_, List.forall_mem_cons.2 ⟨hs _ List.mem_cons_self, hsorted⟩, fun t ht => ?_⟩
          · rw [List.flatten_cons, List.flatten_cons]
            exact (hperm.append_left _).trans List.perm_middle
          · have hle : q.1 ≤ head.1 := by
              rcases hbefore with hlt | ⟨heq, _⟩
              · exact hlt.le
              · exact heq.le
            rw [List.flatten_cons, List.mem_append, List.mem_cons] at ht
            rcases ht with (rfl | ht) | ht
            · exact hle
            · exact hle.trans (hhead.1 t ht)
            · exact hleast t ht
        · next hbefore =>
          obtain ⟨rfl, rfl⟩ := Prod.mk.injEq .. ▸ Option.some_inj.1 h
          have hle : head.1 ≤ q.1 := NotAfter.start_le hbefore
          refine ⟨List.Perm.refl _, List.forall_mem_cons.2 ⟨hhead.2, hrest⟩, fun t ht => ?_⟩
          rw [List.flatten_cons, List.mem_append] at ht
          rcases ht with ht | ht
          · exact hhead.1 t ht
          · rcases List.mem_cons.1 (hperm.subset ht) with rfl | ht
            · exact hle
            · exact hle.trans (hleast t ht)

/-- What a merge keeps of the intervals merged so far, last first: no interval left starts
    before the last one. -/
def Leads (merged : List (α × α)) (left : List (α × α)) : Prop :=
  ∀ q ∈ merged.head?, ∀ p ∈ left, q.1 ≤ p.1

/-- What leads goes on to lead with the next interval joined. -/
theorem leads_join {touching : Bool} {p : α × α} {merged left : List (α × α)}
    (h : Leads merged (p :: left)) (hp : ∀ q ∈ left, p.1 ≤ q.1) :
    Leads (join touching p merged) left := by
  cases merged with
  | nil => simpa [Leads, join] using hp
  | cons q merged =>
    have hq : ∀ t ∈ left, q.1 ≤ t.1 := fun t ht =>
      h q (by simp) t (List.mem_cons_of_mem _ ht)
    rw [join]
    split
    · simpa [Leads] using hq
    · simpa [Leads] using hp

/-- Joining intervals that overlap keeps what is strictly inside. -/
theorem strictlyInside_join {p : α × α} {merged : List (α × α)} {x : α}
    (h : Leads merged [p]) :
    StrictlyInside x (join false p merged) ↔ (p.1 < x ∧ x < p.2) ∨ StrictlyInside x merged := by
  cases merged with
  | nil => simp [join]
  | cons q merged =>
    have hq : q.1 ≤ p.1 := h q (by simp) p (by simp)
    rw [join]
    split
    · next hjoins =>
      have hlt := joins_false.1 hjoins
      simp only [strictlyInside_cons, lt_max_iff, ← or_assoc]
      refine or_congr_left ⟨fun ⟨h₁, h₂⟩ => ?_, ?_⟩
      · rcases lt_or_ge x q.2 with hx | hx
        · exact Or.inr ⟨h₁, hx⟩
        · exact Or.inl ⟨hlt.trans_le hx, h₂.resolve_left (not_lt.2 hx)⟩
      · rintro (⟨h₁, h₂⟩ | ⟨h₁, h₂⟩)
        · exact ⟨hq.trans_lt h₁, Or.inr h₂⟩
        · exact ⟨h₁, Or.inl h₂⟩
    · rw [strictlyInside_cons]

/-- Joining intervals that touch keeps what is inside. -/
theorem inside_join {p : α × α} {merged : List (α × α)} {x : α} (h : Leads merged [p]) :
    Inside x (join true p merged) ↔ (p.1 ≤ x ∧ x ≤ p.2) ∨ Inside x merged := by
  cases merged with
  | nil => simp [join]
  | cons q merged =>
    have hq : q.1 ≤ p.1 := h q (by simp) p (by simp)
    rw [join]
    split
    · next hjoins =>
      have hle := joins_true.1 hjoins
      simp only [inside_cons, le_max_iff, ← or_assoc]
      refine or_congr_left ⟨fun ⟨h₁, h₂⟩ => ?_, ?_⟩
      · rcases le_or_gt x q.2 with hx | hx
        · exact Or.inr ⟨h₁, hx⟩
        · exact Or.inl ⟨hle.trans hx.le, h₂.resolve_left (not_le.2 hx)⟩
      · rintro (⟨h₁, h₂⟩ | ⟨h₁, h₂⟩)
        · exact ⟨hq.trans h₁, Or.inr h₂⟩
        · exact ⟨h₁, Or.inl h₂⟩
    · rw [inside_cons]

/-- The merge loop: a property of the merged list that joining an interval keeps, over all
    intervals left. -/
theorem mergeFrom_induction {touching : Bool} {P : List (α × α) → List (α × α) → Prop}
    (step : ∀ p merged left, Leads merged (p :: left) → (∀ q ∈ left, p.1 ≤ q.1) →
      P merged (p :: left) → P (join touching p merged) left)
    (perm : ∀ merged left left', left.Perm left' → P merged left → P merged left')
    {fuel : Nat} {sources : List (List (α × α))} {merged : List (α × α)}
    (hs : ∀ s ∈ sources, ByStart s) (hfuel : sources.flatten.length ≤ fuel)
    (hleads : Leads merged sources.flatten) (h : P merged sources.flatten) :
    ∃ merged', P merged' [] ∧ mergeFrom touching fuel sources merged = merged'.reverse := by
  induction fuel generalizing sources merged with
  | zero =>
    rw [List.length_eq_zero_iff.1 (Nat.le_zero.1 hfuel)] at h
    exact ⟨merged, h, rfl⟩
  | succ fuel ih =>
    rw [mergeFrom]
    cases hpick : pick sources with
    | none =>
      rw [pick_none hpick] at h
      exact ⟨merged, h, rfl⟩
    | some picked =>
      obtain ⟨p, sources'⟩ := picked
      obtain ⟨hperm, hsorted, hleast⟩ := pick_spec hpick hs
      have hleads' : Leads merged (p :: sources'.flatten) :=
        fun q hq t ht => hleads q hq t (hperm.symm.subset ht)
      have hlen := hperm.length_eq
      rw [List.length_cons] at hlen
      exact ih hsorted (by omega) (leads_join hleads' hleast)
        (step p merged _ hleads' hleast (perm _ _ _ hperm h))

/-- The induction over the merge: what a join keeps, and what does not depend on the order left,
    holds at the end. -/
theorem merge_induction (touching : Bool) {P : List (α × α) → List (α × α) → Prop}
    (step : ∀ p merged left, Leads merged (p :: left) → (∀ q ∈ left, p.1 ≤ q.1) →
      P merged (p :: left) → P (join touching p merged) left)
    (perm : ∀ merged left left', left.Perm left' → P merged left → P merged left')
    {sources : List (List (α × α))} (hs : ∀ s ∈ sources, ByStart s) (h : P [] sources.flatten) :
    ∃ merged, P merged [] ∧ merge touching sources = merged.reverse :=
  mergeFrom_induction step perm hs le_rfl (fun _ hq => by cases hq) h

section

variable {sources : List (List (α × α))} {x : α}

/-- What is strictly inside a merge is so in one of the sources. -/
theorem strictlyInside_merge (hs : ∀ s ∈ sources, ByStart s) :
    StrictlyInside x (merge false sources) ↔ ∃ s ∈ sources, StrictlyInside x s := by
  obtain ⟨merged, h, hmerge⟩ := merge_induction false
    (P := fun merged left =>
      StrictlyInside x merged ∨ StrictlyInside x left ↔ StrictlyInside x sources.flatten)
    (fun p merged left hleads _ h => by
      rw [strictlyInside_join fun q hq t ht => hleads q hq t (by simp_all), ← h,
        strictlyInside_cons]
      exact or_assoc.trans or_left_comm)
    (fun merged left left' hperm h => by
      rw [← h, strictlyInside_congr fun p => hperm.mem_iff])
    hs (by simp)
  rw [hmerge, strictlyInside_congr fun p => List.mem_reverse]
  rw [or_iff_left (not_strictlyInside_nil x)] at h
  rw [h]
  simp only [StrictlyInside, List.mem_flatten]
  tauto

/-- What is inside a merge is so in one of the sources. -/
theorem inside_merge (hs : ∀ s ∈ sources, ByStart s) :
    Inside x (merge true sources) ↔ ∃ s ∈ sources, Inside x s := by
  obtain ⟨merged, h, hmerge⟩ := merge_induction true
    (P := fun merged left => Inside x merged ∨ Inside x left ↔ Inside x sources.flatten)
    (fun p merged left hleads _ h => by
      rw [inside_join fun q hq t ht => hleads q hq t (by simp_all), ← h, inside_cons]
      exact or_assoc.trans or_left_comm)
    (fun merged left left' hperm h => by
      rw [← h, inside_congr fun p => hperm.mem_iff])
    hs (by simp)
  rw [hmerge, inside_congr fun p => List.mem_reverse]
  rw [or_iff_left (not_inside_nil x)] at h
  rw [h]
  simp only [Inside, List.mem_flatten]
  tauto

/-- A merge is apart and goes forward. -/
theorem apart_merge (touching : Bool) (hs : ∀ s ∈ sources, ByStart s)
    (hf : ∀ s ∈ sources, Forward s) :
    Apart touching (merge touching sources) ∧ Forward (merge touching sources) := by
  obtain ⟨merged, ⟨hapart, hforward, _⟩, hmerge⟩ := merge_induction touching
    (P := fun merged left =>
      merged.Pairwise (fun p q => ¬Joins touching p q) ∧ Forward merged ∧ Forward left)
    (fun p merged left hleads _ ⟨hapart, hforward, hleft⟩ => by
      have hp : p.1 ≤ p.2 := hleft p List.mem_cons_self
      have hleft' : Forward left := fun q hq => hleft q (List.mem_cons_of_mem _ hq)
      cases merged with
      | nil => exact ⟨List.pairwise_singleton _ _, by simpa [Forward, join] using hp, hleft'⟩
      | cons q merged =>
        have hq : q.1 ≤ q.2 := hforward q List.mem_cons_self
        obtain ⟨hrest, hpair⟩ := List.pairwise_cons.1 hapart
        rw [join]
        split
        · refine ⟨List.pairwise_cons.2 ⟨fun r hr => hrest r hr, hpair⟩,
            List.forall_mem_cons.2 ⟨hq.trans (le_max_left _ _), fun r hr =>
              hforward r (List.mem_cons_of_mem _ hr)⟩, hleft'⟩
        · next hjoins =>
          refine ⟨List.pairwise_cons.2 ⟨List.forall_mem_cons.2 ⟨hjoins, fun r hr => ?_⟩, hapart⟩,
            List.forall_mem_cons.2 ⟨hp, hforward⟩, hleft'⟩
          -- An interval before `q` ends before `q` starts, so before `p` does.
          have hr' := hrest r hr
          have hqp : q.2 ≤ p.1 := not_lt.1 fun hlt => hjoins (Or.inl hlt)
          have hrq : r.2 ≤ q.1 := not_lt.1 fun hlt => hr' (Or.inl hlt)
          rintro (hlt | ⟨ht, heq⟩)
          · exact (hrq.trans (hq.trans hqp)).not_gt hlt
          · exact hr' (Or.inr ⟨ht, le_antisymm ((hq.trans hqp).trans heq.le) hrq⟩))
    (fun merged left left' hperm ⟨h₁, h₂, h₃⟩ =>
      ⟨h₁, h₂, fun p hp => h₃ p (hperm.symm.subset hp)⟩)
    hs ⟨List.Pairwise.nil, by simp [Forward], fun p hp => by
      obtain ⟨s, hs, hp⟩ := List.mem_flatten.1 hp
      exact hf s hs p hp⟩
  rw [hmerge]
  exact ⟨List.pairwise_reverse.2 hapart, fun p hp => hforward p (List.mem_reverse.1 hp)⟩

/-- Without joining intervals that touch, a merge is sorted, and no interval of it overlaps a later
    one, also where some end before they start. -/
theorem sorted_merge (hs : ∀ s ∈ sources, ByStart s) :
    ByStart (merge false sources) ∧ Apart false (merge false sources) := by
  obtain ⟨merged, h, hmerge⟩ := merge_induction false
    (P := fun merged _ => merged.Pairwise fun p q => q.1 ≤ p.1 ∧ ¬Joins false p q)
    (fun p merged left hleads _ h => by
      cases merged with
      | nil => exact List.pairwise_singleton _ _
      | cons q merged =>
        obtain ⟨hq, hrest⟩ := List.pairwise_cons.1 h
        have hle : q.1 ≤ p.1 := hleads q rfl p List.mem_cons_self
        rw [join]
        split
        · exact List.pairwise_cons.2 ⟨hq, hrest⟩
        · next hjoins =>
          refine List.pairwise_cons.2 ⟨List.forall_mem_cons.2 ⟨⟨hle, hjoins⟩, fun r hr => ?_⟩, h⟩
          obtain ⟨hr₁, hr₂⟩ := hq r hr
          rw [joins_false, not_lt] at hr₂
          exact ⟨hr₁.trans hle, by rw [joins_false, not_lt]; exact hr₂.trans hle⟩)
    (fun _ _ _ _ h => h) hs List.Pairwise.nil
  rw [hmerge]
  exact ⟨List.pairwise_reverse.2 (h.imp And.left), List.pairwise_reverse.2 (h.imp And.right)⟩

end

/-! ## Looking up a point -/

section

variable {l : List (α × α)} {x : α}

/-- Of intervals apart, those after one that ends behind the point start no earlier. -/
theorem strictlyInside_iff_head (h : Apart false l) :
    StrictlyInside x l ↔ ∃ p ∈ (l.dropWhile fun p => p.2 ≤ x).head?, p.1 < x := by
  induction l with
  | nil => simp
  | cons p l ih =>
    obtain ⟨hp, hl⟩ := List.pairwise_cons.1 h
    rw [strictlyInside_cons, List.dropWhile_cons]
    by_cases hle : p.2 ≤ x
    · rw [if_pos (by simpa using hle), ← ih hl]
      exact or_iff_right fun hin => hin.2.not_ge hle
    · rw [if_neg (by simpa using hle)]
      have hx := not_le.1 hle
      simp only [List.head?_cons, Option.mem_some_iff, exists_eq_left']
      refine ⟨?_, fun hlt => Or.inl ⟨hlt, hx⟩⟩
      rintro (hin | ⟨q, hq, hin⟩)
      · exact hin.1
      · have hpq := hp q hq
        rw [joins_false, not_lt] at hpq
        exact absurd (hin.1.trans hx) hpq.not_gt

/-- Of closed intervals apart, those after one that does not end before the point start behind
    the point. -/
theorem inside_iff_head (h : Apart true l) :
    Inside x l ↔ ∃ p ∈ (l.dropWhile fun p => p.2 < x).head?, p.1 ≤ x := by
  induction l with
  | nil => simp
  | cons p l ih =>
    obtain ⟨hp, hl⟩ := List.pairwise_cons.1 h
    rw [inside_cons, List.dropWhile_cons]
    by_cases hlt : p.2 < x
    · rw [if_pos (by simpa using hlt), ← ih hl]
      exact or_iff_right fun hin => hin.2.not_gt hlt
    · rw [if_neg (by simpa using hlt)]
      have hx := not_lt.1 hlt
      simp only [List.head?_cons, Option.mem_some_iff, exists_eq_left']
      refine ⟨?_, fun hle => Or.inl ⟨hle, hx⟩⟩
      rintro (hin | ⟨q, hq, hin⟩)
      · exact hin.1
      · have hpq := hp q hq
        rw [joins_true, not_le] at hpq
        exact absurd (hin.1.trans hx) hpq.not_ge

/-- A cursor that passed the intervals that end before a point lost none for the points after
    it. -/
theorem strictlyInside_dropWhile {y : α} (hxy : x ≤ y) :
    StrictlyInside y (l.dropWhile fun p => p.2 ≤ x) ↔ StrictlyInside y l := by
  induction l with
  | nil => rfl
  | cons p l ih =>
    rw [List.dropWhile_cons]
    split
    · next hle =>
      rw [ih, strictlyInside_cons]
      have hle := (decide_eq_true_iff.1 hle).trans hxy
      exact (or_iff_right fun hin => hin.2.not_ge hle).symm
    · rfl

/-- Intervals that end before a place are inside no place from it on. -/
theorem inside_dropWhile {y : α} (hxy : x ≤ y) :
    Inside y (l.dropWhile fun p => p.2 < x) ↔ Inside y l := by
  induction l with
  | nil => rfl
  | cons p l ih =>
    rw [List.dropWhile_cons]
    split
    · next hlt =>
      rw [ih, inside_cons]
      have hlt := (decide_eq_true_iff.1 hlt).trans_le hxy
      exact (or_iff_right fun hin => hin.2.not_gt hlt).symm
    · rfl

/-- The interval before the first one that starts at the point or behind it decides. -/
theorem strictlyInside_iff_find (h : Apart false l) {n : Nat}
    (hn : n ≤ l.length) (hlt : ∀ i (hi : i < l.length), i < n → l[i].1 < x)
    (hge : ∀ i (hi : i < l.length), n ≤ i → x ≤ l[i].1) :
    StrictlyInside x l ↔ ∃ p, 0 < n ∧ l[n - 1]? = some p ∧ x < p.2 := by
  constructor
  · rintro ⟨p, hp, hin⟩
    obtain ⟨i, hi, rfl⟩ := List.getElem_of_mem hp
    have hi' : i < n := by
      by_contra hni
      exact (hge i hi (not_lt.1 hni)).not_gt hin.1
    have hlast : n - 1 < l.length := by omega
    refine ⟨l[n - 1], by omega, List.getElem?_eq_getElem _, ?_⟩
    rcases (show i ≤ n - 1 by omega).eq_or_lt with heq | hlt'
    · subst heq
      exact hin.2
    · have hpair := List.pairwise_iff_getElem.1 h i (n - 1) hi (by omega) hlt'
      rw [joins_false, not_lt] at hpair
      exact absurd (hlt (n - 1) (by omega) (by omega)) (not_lt.2 (hin.2.le.trans hpair))
  · rintro ⟨p, hpos, hp, hx⟩
    obtain ⟨hi, rfl⟩ := List.getElem?_eq_some_iff.1 hp
    exact ⟨_, List.getElem_mem hi, hlt _ hi (by omega), hx⟩

end

end Intervals
