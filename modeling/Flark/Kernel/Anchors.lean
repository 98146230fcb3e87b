import Flark.Kernel.DisplayOrder
import Flark.Lib.Worklist

/-!
# Anchors

The caret's places in the source at one place of the display (`anchorsAt` of
`kernel/document.dart`): the legal offsets that hidden syntax links to each other.

* `Document.mem_anchorsAt`: what an offset's anchors are;
* `Document.anchorsAt_eq`: each of them has the same anchors;
* `Document.mem_anchorsAt_of_between`: no legal offset between two of them is missing;
* `Document.anchorsAt_partition`: so they are the classes of the legal offsets.
-/

namespace Flark

/-- Two positions are one place of the display. -/
def DisplayPosition.SamePlace (pos pos' : DisplayPosition) : Prop :=
  pos.row = pos'.row ∧ pos.offset = pos'.offset

namespace DisplayPosition

variable {pos pos' pos'' : DisplayPosition}

theorem SamePlace.symm (h : pos.SamePlace pos') : pos'.SamePlace pos := ⟨h.1.symm, h.2.symm⟩

theorem SamePlace.trans (h : pos.SamePlace pos') (h' : pos'.SamePlace pos'') :
    pos.SamePlace pos'' :=
  ⟨h.1.trans h'.1, h.2.trans h'.2⟩

/-- Between two positions at one place there is no other. -/
theorem SamePlace.between (h : pos.SamePlace pos'') (hle : pos.NoLater pos')
    (hle' : pos'.NoLater pos'') : pos'.SamePlace pos := by
  obtain ⟨hrow, hoffset⟩ := h
  rw [NoLater] at hle hle'
  constructor
  · omega
  · omega

end DisplayPosition

namespace Document

/-! ## Links -/

/-- The offsets at the other ends of the hidden intervals that end or start at an offset. -/
def across (hidden : List (Int × Int)) (x : Int) : List Int :=
  hidden.filterMap fun q => if q.2 = x then some q.1 else if q.1 = x then some q.2 else none

theorem linked_eq_run (hidden : List (Int × Int)) (fuel : Nat) (seen queue : List Int) :
    linked hidden fuel seen queue = Worklist.run (across hidden) fuel seen queue := by
  induction fuel generalizing seen queue with
  | zero => rfl
  | succ fuel ih =>
    cases queue with
    | nil => rfl
    | cons x queue => exact ih _ _

theorem mem_across {hidden : List (Int × Int)} {x y : Int} :
    y ∈ across hidden x ↔ (x, y) ∈ hidden ∨ (y, x) ∈ hidden := by
  rw [across, List.mem_filterMap]
  constructor
  · rintro ⟨⟨a, b⟩, hq, h⟩
    dsimp only at h
    split_ifs at h with hb ha
    · cases hb
      cases h
      exact Or.inr hq
    · cases ha
      cases h
      exact Or.inl hq
  · rintro (hq | hq)
    · refine ⟨(x, y), hq, ?_⟩
      by_cases h : y = x
      · rw [if_pos h, h]
      · rw [if_neg h, if_pos rfl]
    · exact ⟨(y, x), hq, if_pos rfl⟩

/-- Hidden intervals lead from one offset to the other. -/
def Linked (hidden : List (Int × Int)) : Int → Int → Prop :=
  Relation.ReflTransGen (Worklist.Leads (across hidden))

namespace Linked

variable {hidden : List (Int × Int)} {x y z : Int}

theorem symm (h : Linked hidden x y) : Linked hidden y x := by
  have hsymm : Std.Symm (Worklist.Leads (across hidden)) :=
    ⟨fun _ _ hab => mem_across.2 (mem_across.1 hab).symm⟩
  exact Relation.ReflTransGen.stdSymm.symm _ _ h

theorem trans (h : Linked hidden x y) (h' : Linked hidden y z) : Linked hidden x z :=
  Relation.ReflTransGen.trans h h'

/-- From one offset to a later one, the links meet each offset that no hidden interval has
    strictly inside. -/
theorem meets (h : Linked hidden x y) (hforward : Intervals.Forward hidden) (hx : x ≤ z) (hy : z ≤ y)
    (hz : ¬Intervals.StrictlyInside z hidden) : Linked hidden x z := by
  rcases Worklist.reaches_or_jumps h hx hy with h | ⟨u, v, huv, hu, hv⟩
  · exact h
  · rcases mem_across.1 huv with hq | hq
    · exact absurd ⟨_, hq, hu, hv⟩ hz
    · have := hforward _ hq
      dsimp only at this
      omega

end Linked

theorem mem_ends {hidden : List (Int × Int)} {o x y : Int} (hy : y ∈ across hidden x) :
    y ∈ o :: hidden.flatMap fun q => [q.1, q.2] := by
  refine List.mem_cons_of_mem _ (List.mem_flatMap.2 ?_)
  rcases mem_across.1 hy with hq | hq
  · exact ⟨_, hq, List.mem_cons_of_mem _ List.mem_cons_self⟩
  · exact ⟨_, hq, List.mem_cons_self⟩

/-- The search of `anchorsAt` has a turn for each offset that it can see. -/
theorem card_ends (hidden : List (Int × Int)) (o : Int) :
    (o :: hidden.flatMap fun q => [q.1, q.2]).toFinset.card ≤ 2 * hidden.length + 1 := by
  refine (List.toFinset_card_le _).trans (Nat.le_of_eq ?_)
  rw [List.length_cons, List.length_flatMap]
  simp only [List.length_cons, List.length_nil, List.map_const', List.sum_replicate_nat]
  omega

theorem mem_linked {hidden : List (Int × Int)} {o x : Int} :
    x ∈ linked hidden (2 * hidden.length + 1) [o] [o] ↔ Linked hidden o x := by
  rw [linked_eq_run]
  exact Worklist.mem_run (List.mem_toFinset.2 List.mem_cons_self)
    (fun _ _ _ hy => List.mem_toFinset.2 (mem_ends hy))
    (card_ends hidden o)

theorem nodup_linked (hidden : List (Int × Int)) (o : Int) :
    (linked hidden (2 * hidden.length + 1) [o] [o]).Nodup := by
  rw [linked_eq_run]
  exact Worklist.nodup_run (List.mem_toFinset.2 List.mem_cons_self)
    (fun _ _ _ hy => List.mem_toFinset.2 (mem_ends hy))
    (card_ends hidden o)

/-! ## Anchors -/

section

variable {gs : Graphemes} {d : Document}

theorem mem_anchorsAt {o x : Int} : x ∈ d.anchorsAt gs o ↔
    Linked d.projection.hiddenPairs (d.projection.legalize gs o) x ∧
      d.projection.isLegal gs x = true ∧
      (d.displayOf gs x).SamePlace (d.displayOf gs (d.projection.legalize gs o)) := by
  rw [anchorsAt, List.mem_insertionSort, List.mem_filter, mem_linked]
  simp only [Bool.and_eq_true, beq_iff_eq, and_assoc, DisplayPosition.SamePlace]

theorem pairwise_anchorsAt (o : Int) : (d.anchorsAt gs o).Pairwise (· ≤ ·) :=
  List.pairwise_insertionSort _ _

theorem nodup_anchorsAt (o : Int) : (d.anchorsAt gs o).Nodup :=
  (List.perm_insertionSort _ _).nodup_iff.2 ((nodup_linked _ _).filter _)

theorem head?_anchorsAt {o x : Int} (h : (d.anchorsAt gs o).head? = some x) :
    x ∈ d.anchorsAt gs o ∧ ∀ y ∈ d.anchorsAt gs o, x ≤ y := by
  refine ⟨List.mem_of_mem_head? h, fun y hy => ?_⟩
  obtain ⟨rest, hrest⟩ := List.head?_eq_some_iff.1 h
  have hpair := @pairwise_anchorsAt gs d o
  rw [hrest] at hpair hy
  rcases List.mem_cons.1 hy with rfl | hy
  · exact le_rfl
  · exact (List.pairwise_cons.1 hpair).1 y hy

theorem getLast?_anchorsAt {o x : Int} (h : (d.anchorsAt gs o).getLast? = some x) :
    x ∈ d.anchorsAt gs o ∧ ∀ y ∈ d.anchorsAt gs o, y ≤ x := by
  refine ⟨List.mem_of_getLast? h, fun y hy => ?_⟩
  obtain ⟨init, hinit⟩ := List.getLast?_eq_some_iff.1 h
  have hpair := @pairwise_anchorsAt gs d o
  rw [hinit] at hpair hy
  rcases List.mem_append.1 hy with hy | hy
  · exact (List.pairwise_append.1 hpair).2.2 y hy x List.mem_cons_self
  · exact (List.mem_singleton.1 hy).le

theorem legalize_legalize (hd : d.Live gs) (o : Int) :
    d.projection.legalize gs (d.projection.legalize gs o) = d.projection.legalize gs o :=
  (legalize_closure hd).2.2.1 o

theorem legalize_legal (hd : d.Live gs) {o : Int} (ho : d.projection.isLegal gs o = true) :
    d.projection.legalize gs o = o :=
  (legalize_closure hd).2.1 o ho

/-- An offset shows where its legal offset does. -/
theorem displayOf_legalize (hd : d.Live gs) (o : Int) :
    d.displayOf gs (d.projection.legalize gs o) = d.displayOf gs o := by
  rw [displayOf, displayOf, legalize_legalize hd]

theorem anchorsAt_legalize (hd : d.Live gs) (o : Int) :
    d.anchorsAt gs (d.projection.legalize gs o) = d.anchorsAt gs o := by
  rw [anchorsAt, anchorsAt, legalize_legalize hd]

variable (hd : d.Live gs)

include hd

/-- A legal offset is one of its own anchors. -/
theorem mem_anchorsAt_self {o : Int} (ho : d.projection.isLegal gs o = true) :
    o ∈ d.anchorsAt gs o := by
  rw [mem_anchorsAt, legalize_legal hd ho]
  exact ⟨Relation.ReflTransGen.refl, ho, rfl, rfl⟩

/-- An offset has anchors where there is a legal offset at all. -/
theorem legalize_mem_anchorsAt {c : Int} (hc : d.projection.isLegal gs c = true) (o : Int) :
    d.projection.legalize gs o ∈ d.anchorsAt gs o := by
  have hlegal := (legalize_closure hd).1 o ⟨c, hc⟩
  have h := mem_anchorsAt_self hd hlegal
  rwa [anchorsAt_legalize hd] at h

/-- The anchors of an offset are those of each of them. -/
theorem anchorsAt_eq {o x : Int} (hx : x ∈ d.anchorsAt gs o) :
    d.anchorsAt gs x = d.anchorsAt gs o := by
  obtain ⟨hlinked, hlegal, hplace⟩ := mem_anchorsAt.1 hx
  refine List.Perm.eq_of_pairwise' (pairwise_anchorsAt x) (pairwise_anchorsAt o) ?_
  refine (List.perm_ext_iff_of_nodup (nodup_anchorsAt x) (nodup_anchorsAt o)).2 fun y => ?_
  rw [mem_anchorsAt, mem_anchorsAt, legalize_legal hd hlegal]
  refine and_congr ⟨hlinked.trans, hlinked.symm.trans⟩ (and_congr Iff.rfl ?_)
  exact ⟨fun h => h.trans hplace, fun h => h.trans hplace.symm⟩

theorem mem_anchorsAt_symm {x y : Int} (hx : d.projection.isLegal gs x = true)
    (hy : y ∈ d.anchorsAt gs x) : x ∈ d.anchorsAt gs y := by
  rw [anchorsAt_eq hd hy]
  exact mem_anchorsAt_self hd hx

/-- A legal offset between two anchors of a place is one of them. -/
theorem mem_anchorsAt_of_between (hm : d.model.OrderConforms d.source) {o x y z : Int}
    (hx : x ∈ d.anchorsAt gs o) (hy : y ∈ d.anchorsAt gs o) (hz : d.projection.isLegal gs z = true)
    (hxz : x ≤ z) (hzy : z ≤ y) : z ∈ d.anchorsAt gs o := by
  obtain ⟨hlinked, -, hplace⟩ := mem_anchorsAt.1 hx
  obtain ⟨hlinked', -, hplace'⟩ := mem_anchorsAt.1 hy
  have hforward : Intervals.Forward d.projection.hiddenPairs := fun q hq => by
    obtain ⟨r, -, -, hlt⟩ := (Projection.mem_hiddenPairs hd.conforms).1 hq
    exact hlt.le
  have hinside : ¬Intervals.StrictlyInside z d.projection.hiddenPairs := fun ⟨q, hq, hlt⟩ => by
    have hcaret := (Projection.caret_legality hd.built hd.conforms z).1.1 hz
    obtain ⟨r, hr, rfl | rfl, -⟩ := (Projection.mem_hiddenPairs hd.conforms).1 hq
    · exact (hcaret.delimiters r hr).1 hlt
    · exact (hcaret.delimiters r hr).2 hlt
  rw [mem_anchorsAt]
  refine ⟨hlinked.trans ((hlinked.symm.trans hlinked').meets hforward hxz hzy hinside), hz, ?_⟩
  exact ((hplace.trans hplace'.symm).between (displayOf_mono hd hm hxz)
    (displayOf_mono hd hm hzy)).trans hplace

/-- The first and the last anchor of a place, whichever anchor they are asked of. -/
theorem exists_ends_anchorsAt {y : Int} (hy : d.projection.isLegal gs y = true) :
    ∃ first ∈ d.anchorsAt gs y, ∃ last ∈ d.anchorsAt gs y, ∀ x ∈ d.anchorsAt gs y,
      (d.anchorsAt gs x).head? = some first ∧ (d.anchorsAt gs x).getLast? = some last ∧
        first ≤ x ∧ x ≤ last := by
  have hne := List.ne_nil_of_mem (mem_anchorsAt_self hd hy)
  have hfirst := List.head?_eq_some_head hne
  have hlast := List.getLast?_eq_some_getLast hne
  obtain ⟨hmem, hle⟩ := head?_anchorsAt hfirst
  obtain ⟨hmem', hle'⟩ := getLast?_anchorsAt hlast
  refine ⟨_, hmem, _, hmem', fun x hx => ?_⟩
  rw [anchorsAt_eq hd hx]
  exact ⟨hfirst, hlast, hle x hx, hle' x hx⟩

/-- Anchors partition the legal offsets: to be an anchor of an offset is an equivalence between
    them, whose classes each show at one place, leave out no legal offset between two of theirs,
    and have one first and one last anchor. -/
theorem anchorsAt_partition (hm : d.model.OrderConforms d.source) :
    (Equivalence fun x y : {o : Int // d.projection.isLegal gs o = true} =>
      x.1 ∈ d.anchorsAt gs y.1) ∧
    ∀ y, d.projection.isLegal gs y = true →
      (∀ x ∈ d.anchorsAt gs y, d.projection.isLegal gs x = true ∧
        d.anchorsAt gs x = d.anchorsAt gs y ∧
        (d.displayOf gs x).SamePlace (d.displayOf gs y)) ∧
      (∀ x ∈ d.anchorsAt gs y, ∀ x' ∈ d.anchorsAt gs y, ∀ z, d.projection.isLegal gs z = true →
        x ≤ z → z ≤ x' → z ∈ d.anchorsAt gs y) ∧
      ∃ first ∈ d.anchorsAt gs y, ∃ last ∈ d.anchorsAt gs y, ∀ x ∈ d.anchorsAt gs y,
        (d.anchorsAt gs x).head? = some first ∧ (d.anchorsAt gs x).getLast? = some last ∧
          first ≤ x ∧ x ≤ last := by
  refine ⟨⟨fun x => mem_anchorsAt_self hd x.2, fun {x y} h => mem_anchorsAt_symm hd y.2 h,
    fun {x y z} h h' => ?_⟩, fun y hy => ⟨fun x hx => ?_, ?_, exists_ends_anchorsAt hd hy⟩⟩
  · rwa [anchorsAt_eq hd h'] at h
  · have hplace := (mem_anchorsAt.1 hx).2.2
    rw [legalize_legal hd hy] at hplace
    exact ⟨(mem_anchorsAt.1 hx).2.1, anchorsAt_eq hd hx, hplace⟩
  · exact fun x hx x' hx' z hz => mem_anchorsAt_of_between hd hm hx hx' hz

end

/-- The caret between the last two letters has one anchor. -/
theorem anchorsAt_partition_letters :
    (Equivalence fun x y : {o : Int // letters.projection.isLegal .units o = true} =>
      x.1 ∈ letters.anchorsAt .units y.1) ∧
    ∃ first ∈ letters.anchorsAt .units 4, ∃ last ∈ letters.anchorsAt .units 4, first ≤ last := by
  obtain ⟨hequiv, hclass⟩ := anchorsAt_partition letters_live twoParagraphs_orderConforms
  obtain ⟨-, -, first, hfirst, last, hlast, hends⟩ := hclass 4 (by decide)
  exact ⟨hequiv, first, hfirst, last, hlast, (hends first hfirst).2.2.2⟩

end Document

end Flark
