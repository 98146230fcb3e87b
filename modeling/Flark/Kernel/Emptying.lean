import Flark.Kernel.InlineEdges
import Flark.Lib.Widening

/-!
# Ranges for emptying

A deletion that empties an inline owner takes the owner whole, so that its hidden delimiters are
not left behind in the source (`_rangeForEmptying` of `kernel/editor.dart`, and
`expandFlarkAtomicRange` and `ownersOfContent` of `kernel/document.dart`). The loop looks only at
the owners at the two ends of the range; that it finds all those the range empties is due to how
runs nest (`Document.RunsNest`) and to the ends never being inside a delimiter.

* `Document.rangeForEmptying`: as the source has it;
* `Document.Emptied`: the least range that strands no delimiter;
* `Document.rangeForEmptying_spec`: the loop ends, and with that range.
-/

namespace Flark

open Widening

/-! ## The range -/

/-- The loop of `expandFlarkAtomicRange` over the blocked intervals. -/
def expandAtomic : (blocked : List (Int × Int)) → (start stop : Int) → Int × Int
  | [], start, stop => (start, stop)
  | (a, b) :: blocked, start, stop =>
    if stop ≤ a then (start, stop)
    else
      expandAtomic blocked (if a < start ∧ start < b then a else start)
        (if a < stop ∧ stop < b then b else stop)

/-- The range that `_rangeForEmptying` widens, and what it has taken in. -/
structure Emptying where
  start : Int
  stop : Int
  styles : Nat := 0
  recreate : Bool := true
  grew : Bool := true
  deriving DecidableEq

namespace Emptying

def range (st : Emptying) : Int × Int := (st.start, st.stop)

/-- What the loop does at an owner: one that has all its content in the range, but not all of
    itself, is taken in. -/
def take (st : Emptying) (o : Owner) : Emptying :=
  if o.contentStart < st.start ∨ st.stop < o.contentEnd then st
  else if st.start ≤ o.start ∧ o.stop ≤ st.stop then st
  else
    { start := if o.start < st.start then o.start else st.start
      stop := if st.stop < o.stop then o.stop else st.stop
      styles := st.styles ||| o.style
      recreate := st.recreate && o.kind != RunKind.escape
      grew := true }

end Emptying

namespace Document

variable (gs : Graphemes) (d : Document)

/-- `expandFlarkAtomicRange`. -/
def expandAtomicRange (start stop : Int) : Int × Int :=
  expandAtomic (d.projection.blockedPairs gs) start stop

/-- `ownersOf`: the styled owners in the leaf block that a row projects. -/
def ownersOf (row : ProjectedRow) : List Owner :=
  let (first, stop) := d.runsOfRow row
  ((List.range' first (stop - first)).filter fun r =>
    owns (d.model.runKind r) && d.model.runKind r != RunKind.escape).map d.model.owner

/-- `ownersOfContent`: the owners that the deletion of exactly their content empties. -/
def ownersOfContent (start stop : Int) : List Owner :=
  let (first, last) := d.runsNear gs start
  ((List.range' first (last - first)).filter fun r =>
    owns (d.model.runKind r) && (d.model.runContentStart r : Int) == start &&
      (d.model.runContentEnd r : Int) == stop).map d.model.owner

/-- One turn of the loop, over the owners at the two ends. -/
def emptyingTurn (st : Emptying) : Emptying :=
  (d.ownersOfContent gs st.start st.stop ++ d.ownersAt gs st.start ++
    d.ownersAt gs st.stop).foldl Emptying.take { st with grew := false }

/-- The loop, as long as it grows; `none` where it goes on. -/
def emptyingTurns : (fuel : Nat) → Emptying → Option Emptying
  | 0, st => if st.grew then none else some st
  | fuel + 1, st => if st.grew then emptyingTurns fuel (d.emptyingTurn gs st) else some st

/-- The style that the next typed character takes where the range is emptied. -/
def emptyingPending (st : Emptying) : Option PendingStyle :=
  let intent := (d.ownersAt gs d.selection.extent).filter fun o =>
    decide (st.start ≤ o.start ∧ o.stop ≤ st.stop)
  if st.recreate && st.styles != 0 && !intent.isEmpty then
    some {
      opening := (intent.map fun o => d.source.substring o.start o.contentStart).flatten
      closing := (intent.reverse.map fun o => d.source.substring o.contentEnd o.stop).flatten
      styles := intent.foldl (fun mask o => mask ||| o.style) 0 }
  else none

/-- `_rangeForEmptying`; `none` where the loop does not end. -/
def rangeForEmptying (start stop : Int) : Option ((Int × Int) × Option PendingStyle) :=
  let atomic := d.expandAtomicRange gs start stop
  (d.emptyingTurns gs (d.source.length + 1) { start := atomic.1, stop := atomic.2 }).map fun st =>
    (st.range, d.emptyingPending gs st)

/-! ## What it is for -/

/-- The owners of the leaf that an offset shows in. -/
def leafOwners (offset : Int) : List Owner := ((d.rowAt gs offset).map d.ownersOf).getD []

end Document

/-- The content of an owner in its delimiters. -/
def Owner.wrap (o : Owner) : Wrap Int := ⟨o.start, o.contentStart, o.contentEnd, o.stop⟩

namespace Document

variable (gs : Graphemes) (d : Document)

/-- The row that an offset of the source shows in is that of another one. -/
def SameRow (start x : Int) : Prop :=
  0 ≤ x ∧ x ≤ d.source.length ∧ d.rowAt gs x = d.rowAt gs start

/-- The wraps of the owners of a leaf. -/
def leafWraps (offset : Int) : Set (Wrap Int) := {w | ∃ o ∈ d.leafOwners gs offset, w = o.wrap}

/-- The range is the least that has the atomic expansion of another one and has whole every owner
    of the leaf whose content it has. What it adds is delimiters of such owners, and no delimiter
    has an end of it strictly inside. -/
structure Emptied (start stop : Int) (range : Int × Int) : Prop where
  within : Within (d.expandAtomicRange gs start stop) range
  whole : Whole (d.leafWraps gs start) range
  least : ∀ range', Whole (d.leafWraps gs start) range' →
    Within (d.expandAtomicRange gs start stop) range' → Within range range'
  added : ∀ x, range.1 ≤ x → x < range.2 →
    ((d.expandAtomicRange gs start stop).1 ≤ x ∧ x < (d.expandAtomicRange gs start stop).2) ∨
      ∃ o ∈ d.leafOwners gs start, range.1 ≤ o.contentStart ∧ o.contentEnd ≤ range.2 ∧
        (o.start ≤ x ∧ x < o.contentStart ∨ o.contentEnd ≤ x ∧ x < o.stop)
  clear : ∀ r < d.model.runCount, ¬(d.model.owner r).wrap.Cut range.1 ∧
    ¬(d.model.owner r).wrap.Cut range.2

/-- What the parser gives of the runs: a later run lies behind an earlier one or in its content, an
    escape has a content and no run in it, and a run starts and ends in the row of its leaf. -/
structure RunsNest : Prop where
  nested : ∀ r < d.model.runCount, ∀ q < r, d.model.runEnd q ≤ d.model.runStart r ∨
    d.model.runKind q ≠ RunKind.escape ∧ d.model.runContentStart q ≤ d.model.runStart r ∧
      d.model.runEnd r ≤ d.model.runContentEnd q
  escape : ∀ r < d.model.runCount, d.model.runKind r = RunKind.escape →
    d.model.runContentStart r < d.model.runContentEnd r ∧
      d.model.runContentEnd r = d.model.runEnd r
  counted : ∀ row ∈ d.projection.rows, (d.runsOfRow row).2 ≤ d.model.runCount
  shown : ∀ row ∈ d.projection.rows, ∀ r, (d.runsOfRow row).1 ≤ r → r < (d.runsOfRow row).2 →
    d.rowAt gs (d.model.runStart r) = some row ∧ d.rowAt gs (d.model.runEnd r) = some row

end Document

/-! ## Clear ranges -/

theorem expandAtomic_eq {blocked : List (Int × Int)} {start stop : Int}
    (hstart : ¬Intervals.StrictlyInside start blocked)
    (hstop : ¬Intervals.StrictlyInside stop blocked) :
    expandAtomic blocked start stop = (start, stop) := by
  induction blocked with
  | nil => rfl
  | cons x blocked ih =>
    rw [Intervals.strictlyInside_cons, not_or] at hstart hstop
    rw [expandAtomic]
    split
    · rfl
    · rw [if_neg hstart.1, if_neg hstop.1]
      exact ih hstart.2 hstop.2

namespace RenderModel

variable (m : RenderModel)

/-- The content of a run in its delimiters; an escape is one delimiter. -/
def runWrap (r : Nat) : Wrap Int :=
  if m.runKind r = RunKind.escape then
    ⟨m.runStart r, m.runContentEnd r, m.runContentEnd r, m.runEnd r⟩
  else (m.owner r).wrap

def runWraps : Set (Wrap Int) := {w | ∃ r < m.runCount, w = m.runWrap r}

end RenderModel

namespace Document

variable {gs : Graphemes} {d : Document}

theorem ordered_runWrap (hm : d.model.SchemaConforms d.source) {r : Nat}
    (hr : r < d.model.runCount) : (d.model.runWrap r).Ordered := by
  obtain ⟨h₁, h₂, h₃, -⟩ := hm.runRange r hr
  rw [RenderModel.runWrap]
  split
  · exact ⟨Int.ofNat_le.2 (h₁.trans h₂), le_rfl, Int.ofNat_le.2 h₃⟩
  · exact ⟨Int.ofNat_le.2 h₁, Int.ofNat_le.2 h₂, Int.ofNat_le.2 h₃⟩

theorem nests_runWrap (hruns : d.RunsNest gs) {q r : Nat} (hr : r < d.model.runCount)
    (hq : q < r) : (d.model.runWrap q).Nests (d.model.runWrap r) := by
  have hends : ∀ k, (d.model.runWrap k).start = d.model.runStart k ∧
      (d.model.runWrap k).stop = d.model.runEnd k := fun k => by
    rw [RenderModel.runWrap]
    split <;> exact ⟨rfl, rfl⟩
  rcases hruns.nested r hr q hq with hbehind | ⟨hkind, hstart, hstop⟩
  · refine Or.inl ?_
    rw [(hends q).2, (hends r).1]
    exact Int.ofNat_le.2 hbehind
  · refine Or.inr (Or.inr (Or.inl ?_))
    rw [(hends r).1, (hends r).2, RenderModel.runWrap, if_neg hkind]
    exact ⟨Int.ofNat_le.2 hstart, Int.ofNat_le.2 hstop⟩

theorem nests_of_mem_runWraps (hruns : d.RunsNest gs) {v w : Wrap Int}
    (hv : v ∈ d.model.runWraps) (hw : w ∈ d.model.runWraps) : v.Nests w ∨ v = w := by
  obtain ⟨q, hq, rfl⟩ := hv
  obtain ⟨r, hr, rfl⟩ := hw
  rcases Nat.lt_trichotomy q r with hlt | rfl | hlt
  · exact Or.inl (nests_runWrap hruns hr hlt)
  · exact Or.inr rfl
  · refine Or.inl ?_
    rcases nests_runWrap hruns hq hlt with h | h | h | h
    · exact Or.inr (Or.inl h)
    · exact Or.inl h
    · exact Or.inr (Or.inr (Or.inr h))
    · exact Or.inr (Or.inr (Or.inl h))

/-- A caret is inside no delimiter and no escape. -/
theorem not_cut_of_legal (hd : d.Live gs) {o : Int} (ho : d.projection.isLegal gs o = true) :
    ∀ w ∈ d.model.runWraps, ¬w.Cut o := by
  rintro w ⟨r, hr, rfl⟩ hcut
  have hcaret := (Projection.caret_legality hd.built hd.conforms o).1.1 ho
  obtain ⟨hopening, hclosing⟩ := hcaret.delimiters r hr
  rw [RenderModel.runWrap] at hcut
  split at hcut
  · next hkind =>
    rcases hcut with hcut | hcut
    · exact hcaret.escapes r hr hkind hcut
    · exact hclosing hcut
  · rcases hcut with hcut | hcut
    · exact hopening hcut
    · exact hclosing hcut

/-- No range with its ends clear of the escapes strands one. -/
theorem not_strands_escape (hruns : d.RunsNest gs) {range : Int × Int}
    (hclear : Clear d.model.runWraps range) {r : Nat} (hr : r < d.model.runCount)
    (hkind : d.model.runKind r = RunKind.escape) : ¬Strands range (d.model.owner r).wrap := by
  rintro ⟨hstart, hstop, hlacks⟩
  obtain ⟨hcontent, hend⟩ := hruns.escape r hr hkind
  have hcut := (hclear _ ⟨r, hr, rfl⟩).1
  rw [RenderModel.runWrap, if_pos hkind] at hcut
  simp only [Owner.wrap, RenderModel.owner] at hstart hstop hlacks
  refine hcut (Or.inl ?_)
  dsimp only
  omega

end Document

/-! ## The loop -/

namespace Emptying

variable {st : Emptying} {o : Owner}

/-- An owner is taken in where the range strands it, and the range then grows. -/
theorem take_spec (st : Emptying) (o : Owner) :
    ¬Strands st.range o.wrap ∧ st.take o = st ∨
      Strands st.range o.wrap ∧ (st.take o).range = widen st.range o.wrap ∧
        (st.take o).grew = true ∧
        st.stop - st.start < (st.take o).stop - (st.take o).start := by
  rw [take]
  split
  · next hout =>
    refine Or.inl ⟨fun hs => ?_, rfl⟩
    have h₁ : st.start ≤ o.contentStart := hs.1
    have h₂ : o.contentEnd ≤ st.stop := hs.2.1
    omega
  next hin =>
  split
  · next hwhole => exact Or.inl ⟨fun hs => hs.2.2 hwhole, rfl⟩
  · next hlacks =>
    rw [not_or, not_lt, not_lt] at hin
    refine Or.inr ⟨⟨hin.1, hin.2, hlacks⟩, ?_, rfl, ?_⟩
    · simp only [range, widen, Owner.wrap, Prod.mk.injEq]
      constructor <;> split <;> omega
    · dsimp only
      split <;> split <;> omega

variable {ws os : Set (Wrap Int)}

/-- The loop over owners: each is one that the range is widened by, or one that no clear range
    strands. -/
theorem foldl_take (hnests : ∀ w ∈ os, ∀ v ∈ ws, v.Nests w ∨ v = w)
    (hordered : ∀ v ∈ ws, v.Ordered) (hsub : os ⊆ ws) {owners : List Owner}
    (howners : ∀ o ∈ owners, o.wrap ∈ os ∨ ∀ r, Clear ws r → ¬Strands r o.wrap)
    {st : Emptying} (hclear : Clear ws st.range) :
    Relation.ReflTransGen (Widens os) st.range (owners.foldl take st).range ∧
      (owners.foldl take st = st ∧ (∀ o ∈ owners, ¬Strands st.range o.wrap) ∨
        (owners.foldl take st).grew = true ∧
          st.stop - st.start < (owners.foldl take st).stop - (owners.foldl take st).start) := by
  induction owners generalizing st with
  | nil => exact ⟨.refl, Or.inl ⟨rfl, fun o ho => absurd ho List.not_mem_nil⟩⟩
  | cons o owners ih =>
    obtain ⟨ho, howners⟩ := List.forall_mem_cons.1 howners
    rw [List.foldl_cons]
    rcases take_spec st o with ⟨hnot, heq⟩ | ⟨hs, hrange, hgrew, hlt⟩
    · rw [heq]
      obtain ⟨hrun, hend⟩ := ih howners hclear
      exact ⟨hrun, hend.imp_left fun ⟨h, hall⟩ => ⟨h, List.forall_mem_cons.2 ⟨hnot, hall⟩⟩⟩
    · have hmem : o.wrap ∈ os := ho.resolve_right fun hnever => hnever _ hclear hs
      have hstep : Widens os st.range (st.take o).range := ⟨_, hmem, hs, hrange⟩
      have hclear' : Clear ws (st.take o).range := by
        rw [hrange]
        exact hclear.widen (fun v hv => hnests _ hmem v hv) hordered (hsub hmem)
      obtain ⟨hrun, hend⟩ := ih howners hclear'
      refine ⟨.head hstep hrun, Or.inr ?_⟩
      rcases hend with ⟨heq, -⟩ | ⟨hgrew', hlt'⟩
      · rw [heq]
        exact ⟨hgrew, hlt⟩
      · exact ⟨hgrew', hlt.trans hlt'⟩

end Emptying

namespace Document

variable {gs : Graphemes} {d : Document}

theorem mem_leafOwners {offset : Int} {o : Owner} : o ∈ d.leafOwners gs offset ↔
    ∃ row, d.rowAt gs offset = some row ∧ ∃ r, (d.runsOfRow row).1 ≤ r ∧
      r < (d.runsOfRow row).2 ∧ owns (d.model.runKind r) = true ∧
      d.model.runKind r ≠ RunKind.escape ∧ o = d.model.owner r := by
  rw [leafOwners]
  cases d.rowAt gs offset with
  | none => simp
  | some row =>
    simp only [Option.map_some, Option.getD_some, Option.some.injEq, exists_eq_left', ownersOf,
      List.mem_map, List.mem_filter, List.mem_range'_1, Bool.and_eq_true, bne_iff_ne, ne_eq]
    constructor
    · rintro ⟨r, ⟨⟨h₁, h₂⟩, h₃, h₄⟩, rfl⟩
      exact ⟨r, h₁, by omega, h₃, h₄, rfl⟩
    · rintro ⟨r, h₁, h₂, h₃, h₄, rfl⟩
      exact ⟨r, ⟨⟨h₁, by omega⟩, h₃, h₄⟩, rfl⟩

/-- Those of the leaf whose content has the offset. -/
theorem mem_ownersAt {offset : Int} {o : Owner} : o ∈ d.ownersAt gs offset ↔
    o ∈ d.leafOwners gs offset ∧ o.contentStart ≤ offset ∧ offset ≤ o.contentEnd := by
  rw [mem_leafOwners, ownersAt, runsNear]
  cases d.rowAt gs offset with
  | none => simp
  | some row =>
    simp only [Option.map_some, Option.getD_some, Option.some.injEq, exists_eq_left',
      List.mem_map, List.mem_filter, List.mem_range'_1, Bool.and_eq_true, bne_iff_ne, ne_eq,
      decide_eq_true_eq]
    constructor
    · rintro ⟨r, ⟨⟨h₁, h₂⟩, ⟨⟨h₃, h₄⟩, h₅⟩, h₆⟩, rfl⟩
      exact ⟨⟨r, h₁, by omega, h₃, h₄, rfl⟩, h₅, h₆⟩
    · rintro ⟨⟨r, h₁, h₂, h₃, h₄, rfl⟩, h₅, h₆⟩
      exact ⟨r, ⟨⟨h₁, by omega⟩, ⟨⟨h₃, h₄⟩, h₅⟩, h₆⟩, rfl⟩

theorem mem_ownersOfContent {start stop : Int} {o : Owner}
    (h : o ∈ d.ownersOfContent gs start stop) : o ∈ d.leafOwners gs start ∨
      ∃ row ∈ d.projection.rows, ∃ r < (d.runsOfRow row).2,
        d.model.runKind r = RunKind.escape ∧ o = d.model.owner r := by
  rw [ownersOfContent, runsNear] at h
  rw [mem_leafOwners]
  cases hrow : d.rowAt gs start with
  | none => simp [hrow] at h
  | some row =>
    simp only [hrow, Option.map_some, Option.getD_some, List.mem_map, List.mem_filter,
      List.mem_range'_1, Bool.and_eq_true] at h
    obtain ⟨r, ⟨⟨h₁, h₂⟩, ⟨h₃, -⟩, -⟩, rfl⟩ := h
    by_cases hkind : d.model.runKind r = RunKind.escape
    · exact Or.inr ⟨row, List.mem_of_getElem? hrow, r, by omega, hkind, rfl⟩
    · exact Or.inl ⟨row, rfl, r, h₁, by omega, h₃, hkind, rfl⟩

section

variable (hd : d.Live gs) (hruns : d.RunsNest gs) {start : Int}

include hruns

theorem leafWraps_subset : d.leafWraps gs start ⊆ d.model.runWraps := by
  rintro w ⟨o, ho, rfl⟩
  obtain ⟨row, hrow, r, -, hr, -, hkind, rfl⟩ := mem_leafOwners.1 ho
  refine ⟨r, hr.trans_le (hruns.counted row (List.mem_of_getElem? hrow)), ?_⟩
  rw [RenderModel.runWrap, if_neg hkind]

/-- The owners that a turn looks at, where the ends of the range show in the leaf. -/
theorem owners_of_turn {st : Emptying} (hstart : d.rowAt gs st.start = d.rowAt gs start)
    (hstop : d.rowAt gs st.stop = d.rowAt gs start) :
    ∀ o ∈ d.ownersOfContent gs st.start st.stop ++ d.ownersAt gs st.start ++
        d.ownersAt gs st.stop,
      o.wrap ∈ d.leafWraps gs start ∨ ∀ r, Clear d.model.runWraps r → ¬Strands r o.wrap := by
  have hleaf : d.leafOwners gs st.start = d.leafOwners gs start := by
    rw [leafOwners, leafOwners, hstart]
  have hleaf' : d.leafOwners gs st.stop = d.leafOwners gs start := by
    rw [leafOwners, leafOwners, hstop]
  intro o ho
  rcases List.mem_append.1 ho with ho | ho
  · rcases List.mem_append.1 ho with ho | ho
    · rcases mem_ownersOfContent ho with ho | ⟨row, hrow, r, hr, hkind, rfl⟩
      · exact Or.inl ⟨o, hleaf ▸ ho, rfl⟩
      · exact Or.inr fun range hclear => not_strands_escape hruns hclear
          (hr.trans_le (hruns.counted row hrow)) hkind
    · exact Or.inl ⟨o, hleaf ▸ (mem_ownersAt.1 ho).1, rfl⟩
  · exact Or.inl ⟨o, hleaf' ▸ (mem_ownersAt.1 ho).1, rfl⟩

include hd

theorem emptyingTurn_spec {st : Emptying} (hclear : Clear d.model.runWraps st.range)
    (hstart : d.rowAt gs st.start = d.rowAt gs start)
    (hstop : d.rowAt gs st.stop = d.rowAt gs start) :
    Relation.ReflTransGen (Widens (d.leafWraps gs start)) st.range (d.emptyingTurn gs st).range ∧
      ((d.emptyingTurn gs st).grew = false → Whole (d.leafWraps gs start)
        (d.emptyingTurn gs st).range) ∧
      ((d.emptyingTurn gs st).grew = true →
        st.stop - st.start < (d.emptyingTurn gs st).stop - (d.emptyingTurn gs st).start) := by
  have hsub := @leafWraps_subset gs d hruns start
  have hclear' : Clear d.model.runWraps ({ st with grew := false } : Emptying).range := hclear
  obtain ⟨hrun, hend⟩ := Emptying.foldl_take
    (fun w hw v hv => nests_of_mem_runWraps hruns hv (hsub hw))
    (fun v ⟨r, hr, hv⟩ => hv ▸ ordered_runWrap hd.conforms hr) hsub
    (owners_of_turn hruns hstart hstop) hclear'
  refine ⟨hrun, fun hgrew => ?_, fun hgrew => ?_⟩
  · rcases hend with ⟨heq, hall⟩ | ⟨hgrew', -⟩
    · rw [emptyingTurn, heq]
      -- A wrap that touches an end of the range is one of those looked at.
      refine Clear.whole (fun w hw => hclear w (hsub hw)) ?_
      rintro w ⟨o, ho, rfl⟩ htouch
      obtain ⟨row, hrow, r, -, hr, -, hkind, rfl⟩ := mem_leafOwners.1 ho
      have hcount := hr.trans_le (hruns.counted row (List.mem_of_getElem? hrow))
      have hle : (d.model.owner r).contentStart ≤ (d.model.owner r).contentEnd :=
        (hd.conforms.runRange r hcount).2.1
      refine hall _ ?_
      rcases htouch with h | h
      · have hat : st.start = (d.model.owner r).contentStart := h
        refine List.mem_append_left _ (List.mem_append_right _ (mem_ownersAt.2 ⟨?_, ?_, ?_⟩))
        · rwa [leafOwners, hstart]
        · exact hat.ge
        · exact hat.trans_le (Int.ofNat_le.2 hle)
      · have hat : st.stop = (d.model.owner r).contentEnd := h
        refine List.mem_append_right _ (mem_ownersAt.2 ⟨?_, ?_, ?_⟩)
        · rwa [leafOwners, hstop]
        · exact (Int.ofNat_le.2 hle).trans_eq hat.symm
        · exact hat.le
    · exact absurd (hgrew.symm.trans hgrew') Bool.false_ne_true
  · rcases hend with ⟨heq, -⟩ | ⟨-, hlt⟩
    · rw [emptyingTurn, heq] at hgrew
      exact absurd hgrew Bool.false_ne_true
    · exact hlt

/-- The loop ends: a turn that grows leaves less of the source outside. -/
theorem emptyingTurns_spec {range : Int × Int} (hclear : Clear d.model.runWraps range)
    (hends : d.SameRow gs start range.1 ∧ d.SameRow gs start range.2)
    {fuel : Nat} {st : Emptying}
    (hrun : Relation.ReflTransGen (Widens (d.leafWraps gs start)) range st.range)
    (hgrew : st.grew = true → d.source.length - (st.stop - st.start) < fuel)
    (hwhole : st.grew = false → Whole (d.leafWraps gs start) st.range) :
    ∃ st', d.emptyingTurns gs fuel st = some st' ∧
      Relation.ReflTransGen (Widens (d.leafWraps gs start)) range st'.range ∧
      Whole (d.leafWraps gs start) st'.range := by
  have hsub := @leafWraps_subset gs d hruns start
  -- The wraps of the row have their ends on it, so that the range stays on the row while it grows.
  have hsides : ∀ w ∈ d.leafWraps gs start,
      d.SameRow gs start w.start ∧ d.SameRow gs start w.stop := by
    rintro w ⟨o, ho, rfl⟩
    obtain ⟨row, hrow, r, hfirst, hr, -, -, rfl⟩ := mem_leafOwners.1 ho
    have hmem := List.mem_of_getElem? hrow
    obtain ⟨hstart, hstop⟩ := hruns.shown row hmem r hfirst hr
    obtain ⟨h₁, h₂, h₃, h₄⟩ := hd.conforms.runRange r (hr.trans_le (hruns.counted row hmem))
    have hlength : (d.model.runEnd r : Int) ≤ d.source.length := Int.ofNat_le.2 h₄
    rw [SameRow, SameRow, hrow]
    refine ⟨⟨Int.natCast_nonneg _, ?_, hstart⟩, Int.natCast_nonneg _, hlength, hstop⟩
    exact (Int.ofNat_le.2 ((h₁.trans h₂).trans h₃)).trans hlength
  -- The source outside of the range bounds the turns that are left.
  induction fuel generalizing st with
  | zero =>
    obtain ⟨⟨h₁, -, -⟩, -, h₂, -⟩ := widens_ends hsides hends hrun
    rw [emptyingTurns]
    have hstopped : st.grew = false := by
      rw [Bool.eq_false_iff]
      intro h
      have hlt := hgrew h
      simp only [Emptying.range] at h₁ h₂
      omega
    rw [hstopped]
    exact ⟨st, rfl, hrun, hwhole hstopped⟩
  | succ fuel ih =>
    rw [emptyingTurns]
    split
    · next hgrows =>
      obtain ⟨⟨-, -, hstart⟩, -, -, hstop⟩ := widens_ends hsides hends hrun
      obtain ⟨hcleared, -, -, -⟩ := widens_spec
        (fun w hw v hv => nests_of_mem_runWraps hruns hv (hsub hw))
        (fun v ⟨r, hr, hv⟩ => hv ▸ ordered_runWrap hd.conforms hr) hsub hclear hrun
      obtain ⟨hturn, hwhole', hgrew'⟩ := emptyingTurn_spec hd hruns hcleared hstart hstop
      refine ih (hrun.trans hturn) (fun h => ?_) hwhole'
      have := hgrew hgrows
      have := hgrew' h
      omega
    · next hstopped =>
      exact ⟨st, rfl, hrun, hwhole (Bool.eq_false_iff.2 hstopped)⟩

end

/-- A range of a row widened for emptying strands no delimiter. -/
theorem rangeForEmptying_spec (hd : d.Live gs) (hruns : d.RunsNest gs) {start stop : Int}
    (hle : start ≤ stop) (hstart : d.projection.isLegal gs start = true)
    (hstop : d.projection.isLegal gs stop = true)
    (hrow : d.rowAt gs start = d.rowAt gs stop) :
    ∃ range pending, d.rangeForEmptying gs start stop = some (range, pending) ∧
      d.Emptied gs start stop range := by
  have hlegal := fun o => Projection.caret_legality hd.built hd.conforms o
  have hcaret := (hlegal start).1.1 hstart
  have hcaret' := (hlegal stop).1.1 hstop
  -- Both ends are carets, so that nothing atomic has to be taken in.
  have hatomic : d.expandAtomicRange gs start stop = (start, stop) :=
    expandAtomic_eq ((Projection.caretAt_iff hd.conforms
      (hd.built.shape hd.conforms)).1 hcaret).2.2.2
      ((Projection.caretAt_iff hd.conforms
      (hd.built.shape hd.conforms)).1 hcaret').2.2.2
  have hclear : Clear d.model.runWraps (start, stop) :=
    fun w hw => ⟨not_cut_of_legal hd hstart w hw, not_cut_of_legal hd hstop w hw⟩
  obtain ⟨st, hst, hrun, hwhole⟩ := @emptyingTurns_spec gs d hd hruns start (start, stop) hclear
    ⟨⟨hcaret.nonneg, hcaret.le_length, rfl⟩, hcaret'.nonneg, hcaret'.le_length, hrow.symm⟩
    (d.source.length + 1) { start := start, stop := stop } .refl
    (fun _ => by dsimp only; omega) nofun
  have hsub := @leafWraps_subset gs d hruns start
  obtain ⟨hclear', hwithin, hleast, hadded⟩ := widens_spec
    (fun w hw v hv => nests_of_mem_runWraps hruns hv (hsub hw))
    (fun v ⟨r, hr, hv⟩ => hv ▸ ordered_runWrap hd.conforms hr) hsub hclear hrun
  refine ⟨st.range, d.emptyingPending gs st, ?_, ?_⟩
  · rw [rangeForEmptying, hatomic, hst]
    rfl
  · constructor
    · rwa [hatomic]
    · exact hwhole
    · rw [hatomic]
      exact hleast
    · rw [hatomic]
      intro x hx hx'
      refine (hadded x hx hx').imp_right ?_
      rintro ⟨w, ⟨o, ho, rfl⟩, h₁, h₂, h₃⟩
      exact ⟨o, ho, h₁, h₂, h₃⟩
    · intro r hr
      have hcut : ∀ x, (d.model.owner r).wrap.Cut x → (d.model.runWrap r).Cut x := by
        intro x hx
        rw [RenderModel.runWrap]
        split
        · refine hx.imp_left fun ⟨h₁, h₂⟩ => ⟨h₁, h₂.trans_le ?_⟩
          exact Int.ofNat_le.2 (hd.conforms.runRange r hr).2.1
        · exact hx
      obtain ⟨h₁, h₂⟩ := hclear' _ ⟨r, hr, rfl⟩
      exact ⟨fun h => h₁ (hcut _ h), fun h => h₂ (hcut _ h)⟩

theorem emphasizedLetter_runsNest : emphasizedLetter.RunsNest .units where
  nested := by decide
  escape := by decide
  counted := by decide
  shown := by
    have hall : ∀ row ∈ emphasizedLetter.projection.rows,
        ∀ r < (emphasizedLetter.runsOfRow row).2, (emphasizedLetter.runsOfRow row).1 ≤ r →
          emphasizedLetter.rowAt .units (emphasizedLetter.model.runStart r) = some row ∧
            emphasizedLetter.rowAt .units (emphasizedLetter.model.runEnd r) = some row := by
      decide
    exact fun row hrow r hfirst hr => hall row hrow r hr hfirst

/-- The letter takes its delimiters with it. -/
theorem rangeForEmptying_spec_letters :
    ∃ range pending, emphasizedLetter.rangeForEmptying .units 1 2 = some (range, pending) ∧
      emphasizedLetter.Emptied .units 1 2 range :=
  rangeForEmptying_spec emphasizedLetter_live emphasizedLetter_runsNest (by decide)
    (by decide) (by decide) (by decide)

example : emphasizedLetter.rangeForEmptying .units 1 2 =
    some ((0, 3), some ⟨Text.ofString "*", Text.ofString "*", Style.emphasis, false⟩) := by
  decide

end Document

end Flark
