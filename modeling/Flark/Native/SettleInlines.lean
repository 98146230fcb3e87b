import Flark.Lib.Sweep
import Flark.Native.Records
import Mathlib.Data.List.GetD
import Mathlib.Data.List.Sort

/-!
# Settling a leaf's inline runs

After the runs of a leaf are derived, `settle_inlines` checks that they can be painted
and drops them if not, or if a derivation noted an inline deviation: the leaf then
shows its source. What it checks is local and one pass each: a run against its parent
and the end of the sibling before it (`Extractor.leafRunProblem`), and the content
against a sweep over the sorted spans of the runs (`Extractor.uncoveredContent`).

* `leafRunProblem_eq_none`: the local check makes the runs a forest
  (`PaintableForest`): *any* two siblings are disjoint, at every depth;
* `uncoveredContent_eq_none`: for content records in line order the sweep finds every
  content byte that no childless run and no delimiter shows;
* `settleInlines_forest`: what a leaf publishes.
-/

namespace Flark.Native

open Sweep

/-! ## The law -/

/-- The runs of the leaf at `firstRun` can be painted: each is ordered, its parent is an
    earlier run of the leaf and contains it, and siblings do not overlap. `upto` bounds
    the runs the law is about; for the whole leaf it is `runs.length`. -/
structure ForestUpTo (runs : List RunRec) (firstRun upto : Nat) : Prop where
  /-- Start, content start, content end and end are in this order. -/
  ordered : ∀ i r, firstRun ≤ i → i < upto → runs[i]? = some r →
    r.startByte ≤ r.contentStartByte ∧ r.contentStartByte ≤ r.contentEndByte ∧
      r.contentEndByte ≤ r.endByte
  /-- A parent is an earlier run of the leaf, around the run. -/
  parent : ∀ i r, firstRun ≤ i → i < upto → runs[i]? = some r → r.parent = noParent ∨
    firstRun ≤ r.parent.toNat ∧ r.parent.toNat < i ∧
      ∃ q, runs[r.parent.toNat]? = some q ∧ q.startByte ≤ r.startByte ∧ r.endByte ≤ q.endByte
  /-- Of two siblings, the earlier ends before the later starts. -/
  siblings : ∀ i j r q, firstRun ≤ i → i < j → j < upto → runs[i]? = some r →
    runs[j]? = some q → r.parent = q.parent → r.endByte ≤ q.startByte

/-- The runs from `firstRun` on form a paintable forest. -/
abbrev PaintableForest (runs : List RunRec) (firstRun : Nat) : Prop :=
  ForestUpTo runs firstRun runs.length

/-- The run at `i` has children among the runs of the leaf. -/
def HasChildren (runs : List RunRec) (firstRun i : Nat) : Prop :=
  ∃ j r, firstRun ≤ j ∧ runs[j]? = some r ∧ r.parent ≠ noParent ∧ r.parent.toNat = i

/-- The byte `x` is in a run without children, or in a delimiter of a run with children. -/
def Shown (runs : List RunRec) (firstRun x : Nat) : Prop :=
  ∃ i r, firstRun ≤ i ∧ runs[i]? = some r ∧
    (¬HasChildren runs firstRun i ∧ r.startByte.toNat ≤ x ∧ x < r.endByte.toNat ∨
     HasChildren runs firstRun i ∧
      (r.startByte.toNat ≤ x ∧ x < r.contentStartByte.toNat ∨
       r.contentEndByte.toNat ≤ x ∧ x < r.endByte.toNat))

/-- The byte is a space or a tab. -/
def isBlankByte (b : UInt8) : Bool := b == 0x20 || b == 0x09

/-! ## The check of the runs -/

/-- The slot of a run in `sibling_end`: zero for the leaf's own children, and one past its
    parent's index in the leaf otherwise. -/
def slotOf (firstRun : Nat) (r : RunRec) : Nat :=
  if r.parent = noParent then 0 else r.parent.toNat - firstRun + 1

/-- The check of one run at index `pos` in `run_problem_with`, before that of its previous
    sibling: its own order and its parent. -/
def runProblem (runs : List RunRec) (firstRun pos : Nat) (r : RunRec) : Option String :=
  let s := r.startByte.toNat
  let e := r.endByte.toNat
  let cs := r.contentStartByte.toNat
  let ce := r.contentEndByte.toNat
  if ¬(s ≤ cs ∧ cs ≤ ce ∧ ce ≤ e) then some s!"run {pos} order {s} {cs} {ce} {e}"
  else if r.parent = noParent then none
  else
    let p := r.parent.toNat
    if p < firstRun ∨ pos ≤ p then some s!"run {pos} parent {p} outside the leaf"
    else
      let ps := (runs.getD p default).startByte.toNat
      let pe := (runs.getD p default).endByte.toNat
      if s < ps ∨ pe < e then some s!"run {pos} {s}..{e} outside its parent {p} {ps}..{pe}"
      else none

/-- The loop of `run_problem_with` from the run at `pos` on: `rest` are the runs left and
    `siblingEnd` the end of the last child in every slot. -/
def runProblemFrom (runs : List RunRec) (firstRun : Nat) :
    (pos : Nat) → (rest : List RunRec) → (siblingEnd : List Nat) → Option String
  | _, [], _ => none
  | pos, r :: rest, siblingEnd =>
    match runProblem runs firstRun pos r with
    | some problem => some problem
    | none =>
      let s := r.startByte.toNat
      let e := r.endByte.toNat
      let slot := slotOf firstRun r
      let previous := siblingEnd.getD slot 0
      if s < previous then
        some s!"run {pos} {s}..{e} overlaps its previous sibling, which ends at {previous}"
      else runProblemFrom runs firstRun (pos + 1) rest (siblingEnd.set slot e)

/-- `Extractor::leaf_run_problem`. -/
def Extractor.leafRunProblem (ex : Extractor) (firstRun : Nat) : Option (Option String) := do
  let runs ← sliceFrom ex.runs firstRun
  return runProblemFrom ex.runs firstRun firstRun runs (List.replicate (runs.length + 1) 0)

/-- What the slots hold after the runs before `upto`: every run ends no later than the
    slot of its parent says. -/
structure SlotsHold (runs : List RunRec) (firstRun upto : Nat) (siblingEnd : List Nat) :
    Prop where
  slot : ∀ i r, firstRun ≤ i → i < upto → runs[i]? = some r →
    slotOf firstRun r ≤ i - firstRun
  reached : ∀ i r, firstRun ≤ i → i < upto → runs[i]? = some r →
    r.endByte.toNat ≤ siblingEnd.getD (slotOf firstRun r) 0

theorem runProblem_eq_none {runs : List RunRec} {firstRun pos : Nat} {r : RunRec}
    (hpos : pos < runs.length) (h : runProblem runs firstRun pos r = none) :
    (r.startByte ≤ r.contentStartByte ∧ r.contentStartByte ≤ r.contentEndByte ∧
      r.contentEndByte ≤ r.endByte) ∧
    (r.parent = noParent ∨ firstRun ≤ r.parent.toNat ∧ r.parent.toNat < pos ∧
      ∃ q, runs[r.parent.toNat]? = some q ∧ q.startByte ≤ r.startByte ∧
        r.endByte ≤ q.endByte) := by
  simp only [runProblem] at h
  split at h
  · exact absurd h (by simp)
  next hord =>
  refine ⟨by simpa [UInt32.le_iff_toNat_le] using hord, ?_⟩
  split at h
  · next hp => exact Or.inl hp
  split at h
  · exact absurd h (by simp)
  next hp =>
  split at h
  · exact absurd h (by simp)
  next hin =>
  have hlt : r.parent.toNat < runs.length := by omega
  rw [List.getD_eq_getElem _ _ hlt] at hin
  refine Or.inr ⟨by omega, by omega, runs[r.parent.toNat], List.getElem?_eq_getElem hlt, ?_⟩
  rw [UInt32.le_iff_toNat_le, UInt32.le_iff_toNat_le]
  omega

/-- The step of the check: the runs up to `pos` form a forest and the slots hold their
    ends, and a run without a problem joins both. -/
theorem ForestUpTo.step {runs : List RunRec} {firstRun pos : Nat} {r : RunRec}
    {siblingEnd : List Nat} (hf : ForestUpTo runs firstRun pos)
    (hs : SlotsHold runs firstRun pos siblingEnd)
    (hlen : siblingEnd.length = runs.length - firstRun + 1)
    (hpos : firstRun ≤ pos) (hr : runs[pos]? = some r)
    (hproblem : runProblem runs firstRun pos r = none)
    (hprevious : siblingEnd.getD (slotOf firstRun r) 0 ≤ r.startByte.toNat) :
    ForestUpTo runs firstRun (pos + 1) ∧
      SlotsHold runs firstRun (pos + 1) (siblingEnd.set (slotOf firstRun r) r.endByte.toNat) := by
  obtain ⟨hlt, -⟩ := List.getElem?_eq_some_iff.1 hr
  obtain ⟨hord, hpar⟩ := runProblem_eq_none hlt hproblem
  have hslot : slotOf firstRun r ≤ pos - firstRun := by
    unfold slotOf
    split
    · omega
    · next hp =>
      obtain ⟨h₁, h₂, -⟩ := hpar.resolve_left hp
      omega
  -- Below, the run at `i` is an earlier one or the new one.
  refine ⟨⟨fun i q hi hip hq => ?_, fun i q hi hip hq => ?_, fun i j q q' hi hij hj hq hq' hp => ?_⟩,
    ⟨fun i q hi hip hq => ?_, fun i q hi hip hq => ?_⟩⟩
  · rcases Nat.lt_succ_iff_lt_or_eq.1 hip with hip | rfl
    · exact hf.ordered i q hi hip hq
    · rwa [← Option.some.inj (hr.symm.trans hq)]
  · rcases Nat.lt_succ_iff_lt_or_eq.1 hip with hip | rfl
    · exact hf.parent i q hi hip hq
    · rwa [← Option.some.inj (hr.symm.trans hq)]
  · rcases Nat.lt_succ_iff_lt_or_eq.1 hj with hj | rfl
    · exact hf.siblings i j q q' hi hij hj hq hq' hp
    · -- The slot of the new run has kept the ends of all its siblings.
      obtain rfl := Option.some.inj (hr.symm.trans hq')
      have hsame : slotOf firstRun q = slotOf firstRun r := by rw [slotOf, slotOf, hp]
      have := hs.reached i q hi hij hq
      rw [hsame] at this
      exact UInt32.le_iff_toNat_le.2 (this.trans hprevious)
  · rcases Nat.lt_succ_iff_lt_or_eq.1 hip with hip | rfl
    · exact hs.slot i q hi hip hq
    · rwa [← Option.some.inj (hr.symm.trans hq)]
  · have hset : ∀ k, (siblingEnd.set (slotOf firstRun r) r.endByte.toNat).getD k 0 =
        if slotOf firstRun r = k then r.endByte.toNat else siblingEnd.getD k 0 := by
      intro k
      rw [List.getD_eq_getElem?_getD, List.getElem?_set, List.getD_eq_getElem?_getD]
      split
      · rw [if_pos (by omega)]
        rfl
      · rfl
    rw [hset]
    rcases Nat.lt_succ_iff_lt_or_eq.1 hip with hip | rfl
    · have hreached := hs.reached i q hi hip hq
      split
      · next hsame =>
        have hle : r.startByte.toNat ≤ r.endByte.toNat := by
          simp only [UInt32.le_iff_toNat_le] at hord
          omega
        rw [← hsame] at hreached
        exact hreached.trans (hprevious.trans hle)
      · exact hreached
    · obtain rfl := Option.some.inj (hr.symm.trans hq)
      rw [if_pos rfl]

theorem ForestUpTo.run {runs : List RunRec} {firstRun : Nat} :
    ∀ {rest : List RunRec} {pos : Nat} {siblingEnd : List Nat},
      ForestUpTo runs firstRun pos → SlotsHold runs firstRun pos siblingEnd →
      siblingEnd.length = runs.length - firstRun + 1 → firstRun ≤ pos →
      runs.drop pos = rest → runProblemFrom runs firstRun pos rest siblingEnd = none →
      PaintableForest runs firstRun
  | [], pos, _, hf, _, _, _, hrest, _ => by
    have hle : runs.length ≤ pos := List.drop_eq_nil_iff.1 hrest
    exact ⟨fun i r hi hlt => hf.ordered i r hi (hlt.trans_le hle),
      fun i r hi hlt => hf.parent i r hi (hlt.trans_le hle),
      fun i j r q hi hij hlt => hf.siblings i j r q hi hij (hlt.trans_le hle)⟩
  | r :: rest, pos, siblingEnd, hf, hs, hlen, hpos, hrest, h => by
    have hr : runs[pos]? = some r := by
      rw [← List.head?_drop, hrest]
      rfl
    rw [runProblemFrom] at h
    split at h
    · exact absurd h (by simp)
    next hproblem =>
    dsimp only at h
    split at h
    · exact absurd h (by simp)
    next hprevious =>
    obtain ⟨hf', hs'⟩ := hf.step hs hlen hpos hr hproblem (Nat.le_of_not_lt hprevious)
    refine ForestUpTo.run hf' hs' (by rw [List.length_set, hlen]) (by omega) ?_ h
    rw [← List.tail_drop, hrest]
    rfl

/-- Runs without a problem form a paintable forest. -/
theorem leafRunProblem_eq_none {ex : Extractor} {firstRun : Nat}
    (h : ex.leafRunProblem firstRun = some none) : PaintableForest ex.runs firstRun := by
  simp only [Extractor.leafRunProblem, Option.bind_eq_bind, Option.bind_eq_some_iff,
    sliceFrom_eq_some, Option.pure_def, Option.some.injEq] at h
  obtain ⟨runs, ⟨hle, rfl⟩, h⟩ := h
  refine ForestUpTo.run (show ForestUpTo ex.runs firstRun firstRun from ⟨?_, ?_, ?_⟩) ⟨?_, ?_⟩
    (by simp) le_rfl rfl h
  all_goals intros; omega

/-! ## The sweep over the content -/

/-- `has_children`: which runs of the leaf another of its runs names as parent. -/
def childFlags (runs : List RunRec) (firstRun : Nat) : List Bool :=
  (runs.drop firstRun).foldl
    (fun flags r =>
      let p := r.parent.toNat
      if r.parent ≠ noParent ∧ firstRun ≤ p ∧ p < runs.length then flags.set (p - firstRun) true
      else flags)
    (List.replicate (runs.drop firstRun).length false)

/-- The parts of a run that show source: all of it, or its delimiters if it has children. -/
def shownSpans (r : RunRec) (hasChildren : Bool) : List (Nat × Nat) :=
  if hasChildren then
    [(r.startByte.toNat, r.contentStartByte.toNat), (r.contentEndByte.toNat, r.endByte.toNat)]
  else [(r.startByte.toNat, r.endByte.toNat)]

/-- The order of pairs of Rust's tuples. -/
def spanLe (p q : Nat × Nat) : Prop := p.1 < q.1 ∨ p.1 = q.1 ∧ p.2 ≤ q.2

instance : DecidableRel spanLe := fun _ _ => inferInstanceAs (Decidable (_ ∨ _))

/-- `spans`, sorted. -/
def leafSpans (runs : List RunRec) (firstRun : Nat) : List (Nat × Nat) :=
  (((runs.drop firstRun).zip (childFlags runs firstRun)).flatMap
    fun (r, hasChildren) => shownSpans r hasChildren).insertionSort spanLe

/-- The bytes of content records, record by record. -/
def contentBytes (content : List ContentRec) : List Nat :=
  content.flatMap fun c =>
    List.range' c.startByte.toNat (c.endByte.toNat - c.startByte.toNat)

/-- The loop of `uncovered_content` over the content bytes left: the first that is not
    below the reach, other than a blank. A byte past the source is a panic. -/
def uncoveredFrom (src : List UInt8) :
    List Nat → (spans : List (Nat × Nat)) → (reach : Nat) → Option (Option Nat)
  | [], _, _ => some none
  | x :: xs, spans, reach =>
    let (spans, reach) := advance x spans reach
    if reach ≤ x then
      match src[x]? with
      | none => none
      | some b => if isBlankByte b then uncoveredFrom src xs spans reach else some (some x)
    else uncoveredFrom src xs spans reach

/-- `Extractor::uncovered_content`. -/
def Extractor.uncoveredContent (ex : Extractor) (firstRun contentFrom : Nat) :
    Option (Option Nat) := do
  let runs ← sliceFrom ex.runs firstRun
  if runs.isEmpty then return none
  let content ← sliceFrom ex.content contentFrom
  uncoveredFrom ex.src (contentBytes content) (leafSpans ex.runs firstRun) 0

/-- Content records in line order: each starts no earlier than those before it. -/
def ContentInOrder (content : List ContentRec) : Prop :=
  content.Pairwise fun c c' => c.startByte ≤ c'.startByte

/-- Every content byte other than a blank is shown by a childless run or a delimiter. -/
def ContentShown (src : List UInt8) (content : List ContentRec) (runs : List RunRec)
    (firstRun : Nat) : Prop :=
  ∀ c ∈ content, ∀ x b, c.startByte.toNat ≤ x → x < c.endByte.toNat → src[x]? = some b →
    isBlankByte b = false → Shown runs firstRun x

theorem foldl_childFlags {runs : List RunRec} {firstRun i : Nat} (hi : firstRun ≤ i)
    (hlt : i < runs.length) :
    ∀ (l : List RunRec) (flags : List Bool), flags.length = runs.length - firstRun →
      ((l.foldl (fun flags r =>
          if r.parent ≠ noParent ∧ firstRun ≤ r.parent.toNat ∧ r.parent.toNat < runs.length then
            flags.set (r.parent.toNat - firstRun) true
          else flags) flags)[i - firstRun]? = some true ↔
        flags[i - firstRun]? = some true ∨
          ∃ r ∈ l, r.parent ≠ noParent ∧ r.parent.toNat = i)
  | [], flags, _ => by simp
  | r :: l, flags, hlen => by
    rw [List.foldl_cons, foldl_childFlags hi hlt l _ (by split <;> simp [hlen])]
    simp only [List.mem_cons, exists_eq_or_imp, ← or_assoc]
    refine or_congr_left ?_
    split
    · next hp =>
      rw [List.getElem?_set]
      by_cases hpi : r.parent.toNat = i
      · rw [if_pos (by omega), if_pos (by omega)]
        simp [hp.1, hpi]
      · rw [if_neg (by omega)]
        simp [hpi]
    · next hp =>
      refine ⟨Or.inl, fun h => h.resolve_right fun ⟨hne, hpi⟩ => hp ⟨hne, ?_, ?_⟩⟩ <;> omega

/-- The flag of a run says whether it has children. -/
theorem childFlags_iff {runs : List RunRec} {firstRun i : Nat} (hi : firstRun ≤ i)
    (hlt : i < runs.length) :
    (childFlags runs firstRun)[i - firstRun]? = some true ↔ HasChildren runs firstRun i := by
  rw [childFlags, foldl_childFlags hi hlt _ _ (by simp)]
  have hno : (List.replicate (runs.drop firstRun).length false)[i - firstRun]? ≠ some true := by
    rw [List.getElem?_replicate]
    split <;> simp
  rw [or_iff_right hno]
  constructor
  · rintro ⟨r, hr, hp⟩
    obtain ⟨j, hj⟩ := List.mem_iff_getElem?.1 hr
    exact ⟨firstRun + j, r, by omega, by rw [← List.getElem?_drop, hj], hp⟩
  · rintro ⟨j, r, hj, hr, hp⟩
    refine ⟨r, List.mem_iff_getElem?.2 ⟨j - firstRun, ?_⟩, hp⟩
    rw [List.getElem?_drop, Nat.add_sub_cancel' hj, hr]

/-- What the spans of the leaf cover is shown. -/
theorem shown_of_covered {runs : List RunRec} {firstRun x : Nat}
    (h : Covered (leafSpans runs firstRun) x) : Shown runs firstRun x := by
  obtain ⟨p, hp, hpx⟩ := h
  rw [leafSpans, List.mem_insertionSort, List.mem_flatMap] at hp
  obtain ⟨⟨r, hasChildren⟩, hmem, hp⟩ := hp
  obtain ⟨j, hj⟩ := List.mem_iff_getElem?.1 hmem
  rw [List.getElem?_zip_eq_some, List.getElem?_drop] at hj
  obtain ⟨hr, hflag⟩ := hj
  obtain ⟨hlt, -⟩ := List.getElem?_eq_some_iff.1 hr
  have hiff := childFlags_iff (show firstRun ≤ firstRun + j by omega) hlt
  rw [Nat.add_sub_cancel_left, hflag, Option.some.injEq] at hiff
  refine ⟨firstRun + j, r, by omega, hr, ?_⟩
  cases hasChildren with
  | true =>
    refine Or.inr ⟨hiff.1 rfl, ?_⟩
    simp only [shownSpans, if_true, List.mem_cons, List.not_mem_nil, or_false] at hp
    rcases hp with rfl | rfl
    · exact Or.inl hpx
    · exact Or.inr hpx
  | false =>
    refine Or.inl ⟨fun hc => absurd (hiff.2 hc) (by simp), ?_⟩
    simp only [shownSpans, Bool.false_eq_true, if_false, List.mem_cons, List.not_mem_nil,
      or_false] at hp
    obtain rfl := hp
    exact hpx

/-- The sweep passes over climbing bytes only if the spans cover them, blanks excepted. -/
theorem uncoveredFrom_eq_none {src : List UInt8} {spans : List (Nat × Nat)} :
    ∀ {xs seen : List Nat} {rest : List (Nat × Nat)} {reach : Nat},
      rest ⊆ spans → Reaches spans seen reach → Climbs seen xs →
      (∀ x ∈ seen, ∀ b, src[x]? = some b → isBlankByte b = false → Covered spans x) →
      uncoveredFrom src xs rest reach = some none →
      ∀ x ∈ xs, ∀ b, src[x]? = some b → isBlankByte b = false → Covered spans x
  | [], _, _, _, _, _, _, _, _ => fun _ hx => absurd hx List.not_mem_nil
  | x :: xs, seen, rest, reach, hsub, hreach, hclimbs, hseen, h => by
    obtain ⟨hx, hclimbs⟩ := hclimbs
    have hsub' : (advance x rest reach).1 ⊆ spans :=
      List.Subset.trans (advance_suffix x rest reach).subset hsub
    -- Whichever way the byte passed, it is good and the sweep went on.
    have key : (∀ b, src[x]? = some b → isBlankByte b = false → Covered spans x) ∧
        uncoveredFrom src xs (advance x rest reach).1 (advance x rest reach).2 = some none := by
      rw [uncoveredFrom] at h
      dsimp only at h
      split at h
      · split at h
        · exact absurd h (by simp)
        · next b hb =>
          split at h
          · next hblank =>
            refine ⟨fun b' hb' hne => ?_, h⟩
            rw [Option.some.inj (hb.symm.trans hb'), hne] at hblank
            exact absurd hblank (by simp)
          · exact absurd h (by simp)
      · next hlt =>
        refine ⟨fun b hb hne => ?_, h⟩
        rcases sweep_covered hsub hreach hx (Nat.lt_of_not_le hlt) with hc | hmem
        · exact hc
        · exact hseen x hmem b hb hne
    have hseen' : ∀ y ∈ x :: seen, ∀ b, src[y]? = some b → isBlankByte b = false →
        Covered spans y := List.forall_mem_cons.2 ⟨key.1, hseen⟩
    refine List.forall_mem_cons.2 ⟨key.1, ?_⟩
    exact uncoveredFrom_eq_none hsub' (hreach.advance hsub) hclimbs hseen' key.2

/-- Content in line order that the sweep passes over is shown. -/
theorem uncoveredContent_eq_none {ex : Extractor} {firstRun contentFrom : Nat}
    (hruns : firstRun < ex.runs.length)
    (horder : ContentInOrder (ex.content.drop contentFrom))
    (h : ex.uncoveredContent firstRun contentFrom = some none) :
    ContentShown ex.src (ex.content.drop contentFrom) ex.runs firstRun := by
  simp only [Extractor.uncoveredContent, Option.bind_eq_bind, Option.bind_eq_some_iff,
    sliceFrom_eq_some] at h
  obtain ⟨runs, ⟨-, rfl⟩, h⟩ := h
  rw [if_neg (by simpa using hruns), Option.bind_eq_some_iff] at h
  simp only [sliceFrom_eq_some] at h
  obtain ⟨content, ⟨-, rfl⟩, h⟩ := h
  have hclimbs : Climbs [] (contentBytes (ex.content.drop contentFrom)) := by
    rw [contentBytes, ← List.flatMap_map
      (fun c : ContentRec => (c.startByte.toNat, c.endByte.toNat - c.startByte.toNat))
      (fun r => List.range' r.1 r.2)]
    refine ClosedAbove.climbs_flatMap_range' (s := 0) (fun z hz => absurd hz List.not_mem_nil)
      (fun _ _ => Nat.zero_le _) ?_
    exact List.pairwise_map.2 (horder.imp fun hle => UInt32.le_iff_toNat_le.1 hle)
  intro c hc x b hs he hb hne
  refine shown_of_covered (uncoveredFrom_eq_none (List.Subset.refl _)
    (fun y _ hy => absurd hy (Nat.not_lt_zero y)) hclimbs
    (fun x hx => absurd hx List.not_mem_nil) h x ?_ b hb hne)
  refine List.mem_flatMap.2 ⟨c, hc, List.mem_range'_1.2 ?_⟩
  omega

/-! ## Settling -/

/-- `block_flag::SOURCE_ONLY`: the leaf publishes without runs. -/
def sourceOnly : UInt32 := (1 : UInt32) <<< 23

/-- `INLINE_RULES`: the deviations that are scoped to the leaf they are found in. -/
def inlineRules : List String :=
  ["text-mismatch", "emph-delims", "strong-delims", "strike-delims", "escape-delims",
    "link-delims", "footnote-ref-delims", "code-delims", "code-literal", "image-delims",
    "html-inline-end", "html-inline-literal", "heading-content", "run-structure"]

/-- The first step of `settle_inlines`: note what is wrong with the runs of the leaf. -/
def Extractor.checkInlines (ex : Extractor) (idx firstRun contentFrom : Nat) :
    Option Extractor := do
  match ← ex.leafRunProblem firstRun with
  | some problem => return ex.dev "run-structure" s!"block {idx}: {problem}"
  | none =>
    match ← ex.uncoveredContent firstRun contentFrom with
    | some x =>
      return ex.dev "run-structure"
        s!"block {idx}: content byte {x} lies in no childless run or delimiter"
    | none => return ex

/-- The second step of `settle_inlines`: scope the inline deviations found since
    `firstDeviation` to the leaf, and drop its runs if there are any. -/
def Extractor.degradeInlines (ex : Extractor) (idx firstRun firstDeviation : Nat) :
    Option Extractor := do
  let found ← sliceFrom ex.deviations firstDeviation
  let named := found.map fun d =>
    if inlineRules.contains d.rule then { d with leaf := some idx.toUInt32 } else d
  let ex := { ex with deviations := ex.deviations.take firstDeviation ++ named }
  if found.any fun d => inlineRules.contains d.rule then
    let b ← ex.blocks[idx]?
    return { ex with
      runs := ex.runs.take firstRun
      blocks := ex.blocks.set idx { b with flags := b.flags ||| sourceOnly } }
  else return ex

/-- `Extractor::settle_inlines`. -/
def Extractor.settleInlines (ex : Extractor)
    (idx firstRun firstDeviation contentFrom : Nat) : Option Extractor := do
  let ex ← ex.checkInlines idx firstRun contentFrom
  ex.degradeInlines idx firstRun firstDeviation

/-- The law of a settled leaf at `idx`, of which `derived` are all runs before settling
    it: its runs are dropped and it carries the flag, or they are kept and a paintable
    forest which, unless the leaf derived none, shows all of its content. -/
def LeafSettled (derived : List RunRec) (ex : Extractor) (idx firstRun contentFrom : Nat) :
    Prop :=
  (ex.runs = derived.take firstRun ∧
      ∃ b, ex.blocks[idx]? = some b ∧ b.flags &&& sourceOnly = sourceOnly) ∨
    (ex.runs = derived ∧ PaintableForest ex.runs firstRun ∧
      (derived.length ≤ firstRun ∨
        ContentShown ex.src (ex.content.drop contentFrom) ex.runs firstRun))

/-- Everything about an extractor but its deviations. -/
structure SameRecords (ex ex' : Extractor) : Prop where
  src : ex'.src = ex.src
  content : ex'.content = ex.content
  blocks : ex'.blocks = ex.blocks
  runs : ex'.runs = ex.runs

/-- Noting an inline deviation leaves the leaf to be degraded. -/
theorem dev_records (ex : Extractor) (rule detail : String) :
    SameRecords ex (ex.dev rule detail) := by
  unfold Extractor.dev
  split <;> exact ⟨rfl, rfl, rfl, rfl⟩

/-- The check changes no record, and if it notes nothing the leaf keeps the law. -/
theorem checkInlines_spec {ex ex' : Extractor} {idx firstRun contentFrom : Nat}
    (hcollect : ex.collect = true) (h : ex.checkInlines idx firstRun contentFrom = some ex') :
    SameRecords ex ex' ∧
      ((∃ d, d.rule = "run-structure" ∧ ex'.deviations = ex.deviations ++ [d]) ∨
       ex' = ex ∧ ex.leafRunProblem firstRun = some none ∧
        ex.uncoveredContent firstRun contentFrom = some none) := by
  have hdev : ∀ detail, SameRecords ex (ex.dev "run-structure" detail) ∧
      (∃ d, d.rule = "run-structure" ∧
        (ex.dev "run-structure" detail).deviations = ex.deviations ++ [d]) := by
    refine fun detail => ⟨dev_records ex _ _, ⟨"run-structure", detail, none⟩, rfl, ?_⟩
    rw [Extractor.dev, if_pos hcollect]
  simp only [Extractor.checkInlines, Option.bind_eq_bind, Option.bind_eq_some_iff] at h
  obtain ⟨problem, hproblem, h⟩ := h
  cases problem with
  | some problem =>
    obtain rfl := Option.some.inj h
    exact ⟨(hdev _).1, Or.inl (hdev _).2⟩
  | none =>
    obtain ⟨uncovered, huncovered, h⟩ := Option.bind_eq_some_iff.1 h
    cases uncovered with
    | some x =>
      obtain rfl := Option.some.inj h
      exact ⟨(hdev _).1, Or.inl (hdev _).2⟩
    | none =>
      obtain rfl := Option.some.inj h
      exact ⟨⟨rfl, rfl, rfl, rfl⟩, Or.inr ⟨rfl, hproblem, huncovered⟩⟩

theorem or_and_cancel_right (a b : UInt32) : (a ||| b) &&& b = b := by
  refine UInt32.toBitVec_inj.1 ?_
  ext i hi
  simpa using Or.inr

/-- Degrading drops the runs of a leaf with an inline deviation and flags it, and keeps
    the records of any other. -/
theorem degradeInlines_spec {ex ex' : Extractor} {idx firstRun firstDeviation : Nat}
    (h : ex.degradeInlines idx firstRun firstDeviation = some ex') :
    ex'.src = ex.src ∧ ex'.content = ex.content ∧
      ((ex'.runs = ex.runs.take firstRun ∧
          ∃ b, ex'.blocks[idx]? = some b ∧ b.flags &&& sourceOnly = sourceOnly) ∨
       ex'.runs = ex.runs ∧
        ∀ d ∈ ex.deviations.drop firstDeviation, d.rule ∉ inlineRules) := by
  simp only [Extractor.degradeInlines, Option.bind_eq_bind, Option.bind_eq_some_iff,
    sliceFrom_eq_some] at h
  obtain ⟨found, ⟨-, rfl⟩, h⟩ := h
  split at h
  · obtain ⟨b, hb, h⟩ := Option.bind_eq_some_iff.1 h
    obtain rfl := Option.some.inj h
    obtain ⟨hlt, -⟩ := List.getElem?_eq_some_iff.1 hb
    refine ⟨rfl, rfl, Or.inl ⟨rfl, { b with flags := b.flags ||| sourceOnly }, ?_, ?_⟩⟩
    · rw [List.getElem?_set_self hlt]
    · exact or_and_cancel_right b.flags sourceOnly
  · next hnone =>
    obtain rfl := Option.some.inj h
    refine ⟨rfl, rfl, Or.inr ⟨rfl, fun d hd hrule => hnone ?_⟩⟩
    exact List.any_eq_true.2 ⟨d, hd, List.contains_iff_mem.2 hrule⟩

/-- Settling a leaf leaves the law: the runs it keeps form a paintable forest that shows
    all of its content, and without them it is flagged as source. The runs of earlier
    leaves are the same. -/
theorem settleInlines_forest {ex ex' : Extractor}
    {idx firstRun firstDeviation contentFrom : Nat} (hcollect : ex.collect = true)
    (hfirst : firstDeviation ≤ ex.deviations.length)
    (horder : ContentInOrder (ex.content.drop contentFrom))
    (h : ex.settleInlines idx firstRun firstDeviation contentFrom = some ex') :
    LeafSettled ex.runs ex' idx firstRun contentFrom ∧
      ex'.runs.take firstRun = ex.runs.take firstRun := by
  simp only [Extractor.settleInlines, Option.bind_eq_bind, Option.bind_eq_some_iff] at h
  obtain ⟨checked, hchecked, h⟩ := h
  obtain ⟨hsame, hfound⟩ := checkInlines_spec hcollect hchecked
  obtain ⟨hsrc, hcontent, hdropped | ⟨hkept, hnone⟩⟩ := degradeInlines_spec h
  · rw [hsame.runs] at hdropped
    refine ⟨Or.inl hdropped, ?_⟩
    rw [hdropped.1, List.take_take, min_self]
  rw [hsame.runs] at hkept
  refine ⟨Or.inr ?_, by rw [hkept]⟩
  rcases hfound with ⟨d, hrule, hd⟩ | ⟨rfl, hproblem, huncovered⟩
  · -- A deviation noted by the check is an inline one, and would have degraded the leaf.
    refine absurd ?_ (hnone d ?_)
    · rw [hrule]
      decide
    · rw [hd, List.drop_append_of_le_length hfirst]
      exact List.mem_append_right _ List.mem_cons_self
  · rw [hkept, hsrc, hcontent]
    refine ⟨rfl, leafRunProblem_eq_none hproblem, ?_⟩
    rcases Nat.lt_or_ge firstRun checked.runs.length with hlt | hge
    · exact Or.inr (uncoveredContent_eq_none hlt horder huncovered)
    · exact Or.inl hge

/-- A run of the source from `s` to `e` with content from `cs` to `ce`. -/
def runAt (parent s cs ce e : UInt32) : RunRec :=
  { (default : RunRec) with
    parent := parent, startByte := s, contentStartByte := cs, contentEndByte := ce, endByte := e }

/-- A content record of the source from `s` to `e`. -/
def contentAt (s e : UInt32) : ContentRec :=
  { (default : ContentRec) with startByte := s, endByte := e }

/-- A document of one leaf with the content and the runs. -/
def leafOf (src : List UInt8) (content : List ContentRec) (runs : List RunRec) : Extractor where
  src := src
  li := default
  blocks := [default]
  content := content
  runs := runs
  definitions := []
  strings := []
  collect := true
  deviations := []

/-- The leaf `*a*`: an emphasis with its text. -/
def emphasisLeaf : Extractor :=
  leafOf [0x2A, 0x61, 0x2A] [contentAt 0 3] [runAt noParent 0 1 2 3, runAt 0 1 1 2 2]

/-- The text of the emphasis is shown by its run, and the asterisks as delimiters. -/
theorem settleInlines_forest_emphasis :
    LeafSettled emphasisLeaf.runs emphasisLeaf 0 0 0 ∧
      emphasisLeaf.runs.take 0 = emphasisLeaf.runs.take 0 :=
  settleInlines_forest rfl (Nat.zero_le _) (List.pairwise_singleton _ _)
    (by decide)

/-- A leaf over `ab` of which a run shows the second letter, with its content out of
    line order: the sweep meets the first letter after the run has raised the reach. -/
def unsortedLeaf : Extractor :=
  leafOf [0x61, 0x62] [contentAt 1 2, contentAt 0 1] [runAt noParent 1 1 2 2]

/-- Without the line order the law can fail: the cursor of the sweep never goes back. -/
theorem not_settleInlines_forest_unsorted :
    ¬ ∀ (ex ex' : Extractor) (idx firstRun firstDeviation contentFrom : Nat),
      ex.collect = true → firstDeviation ≤ ex.deviations.length →
      ex.settleInlines idx firstRun firstDeviation contentFrom = some ex' →
      LeafSettled ex.runs ex' idx firstRun contentFrom := by
  intro h
  have hkept : unsortedLeaf.settleInlines 0 0 0 0 = some unsortedLeaf := by decide
  rcases h unsortedLeaf unsortedLeaf 0 0 0 0 rfl (Nat.le_refl 0) hkept with
    ⟨hdropped, -⟩ | ⟨-, -, hderived | hshown⟩
  · exact absurd hdropped (by decide)
  · exact absurd hderived (by decide)
  · obtain ⟨i, r, -, hr, hin⟩ :=
      hshown (contentAt 0 1) (by decide) 0 0x61 (by decide) (by decide) rfl (by decide)
    have hstart : r.startByte = 1 ∧ r.contentEndByte = 2 := by
      cases i with
      | zero =>
        obtain rfl := Option.some.inj hr
        exact ⟨rfl, rfl⟩
      | succ i => exact absurd hr (by simp [unsortedLeaf, leafOf])
    rcases hin with ⟨-, hle, -⟩ | ⟨-, ⟨hle, -⟩ | ⟨hle, -⟩⟩
    · exact absurd hle (by rw [hstart.1]; decide)
    · exact absurd hle (by rw [hstart.1]; decide)
    · exact absurd hle (by rw [hstart.2]; decide)

end Flark.Native
