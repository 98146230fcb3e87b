import Flark.Native.Structure
import Flark.Schema
import Mathlib.Logic.Relation
import Mathlib.Order.MinMax

/-!
# Refitting containers

A container that runs into the block after it ends with its own content and children instead, and
so do the containers inside it that would end past it (`fit_overlapping_containers`).

* `nextStart_spec`, `reach_spec`: what the two passes over the tree find for each block: where its
  next sibling starts, and how far its content and its leaves reach (`Reaches`);
* `fit_spec`: the blocks refitted are those that overlap their next sibling, and those in a
  refitted one that run past all it holds (`Refits`), and each ends at what it holds;
* `fit_refitted_iff`: the refitted blocks are a tree without losses (`Refitted`) if and only if no
  container that holds nothing begins past what its refitted parent holds, or past its next
  sibling's start (`HoldsTogether`).
-/

namespace Flark.Native

/-! ## The passes -/

/-- The kinds that are refitted: quotes, lists, items and footnote definitions. -/
def isContainer (kind : UInt32) : Bool :=
  kind.toNat = BlockKind.blockQuote || kind.toNat = BlockKind.list ||
    kind.toNat = BlockKind.item || kind.toNat = BlockKind.footnoteDefinition

/-- The siblings linked so far: where the next sibling of each block starts, and the last child of
    each block. -/
structure Links where
  nextStart : List (Option UInt32)
  lastChild : List (Option Nat)

/-- The pass that links siblings, at the block `i`. -/
def Links.link (blocks : List BlockRec) (w : Links) (i : Nat) : Option Links := do
  let b ← blocks[i]?
  if b.parent = noParent then return w
  let lastChild := w.lastChild.set b.parent.toNat (some i)
  match ← w.lastChild[b.parent.toNat]? with
  | none => return { w with lastChild }
  | some previous => return ⟨w.nextStart.set previous (some b.startByte), lastChild⟩

namespace Extractor

variable (ex : Extractor)

/-- `next_start`: where the next sibling of each block starts. -/
def nextStart : Option (List (Option UInt32)) := do
  let w ← (List.range' 1 (ex.blocks.length - 1)).foldlM (Links.link ex.blocks)
    ⟨List.replicate ex.blocks.length none, List.replicate (ex.blocks.length + 1) none⟩
  return w.nextStart

/-- How far a block's own content reaches, and the block itself if it is not a container. -/
def ownReach (b : BlockRec) (reach : UInt32) : UInt32 :=
  let reach := (ex.contentOf b).foldl (fun reach c => max reach c.endByte) reach
  if isContainer b.kind then reach else max reach b.endByte

/-- The pass that measures how far the blocks reach, at the block `i`. -/
def measure (reach : List UInt32) (i : Nat) : Option (List UInt32) := do
  let b ← ex.blocks[i]?
  let own := ex.ownReach b (← reach[i]?)
  let reach := reach.set i own
  if b.parent = noParent then return reach
  let parentReach ← reach[b.parent.toNat]?
  return reach.set b.parent.toNat (max parentReach own)

/-- `reach`: how far the content and the leaves of each block reach. -/
def reach : Option (List UInt32) :=
  (List.range ex.blocks.length).reverse.foldlM ex.measure (List.replicate ex.blocks.length 0)

/-- The end of the parent of a block. -/
def parentEnd (blocks : List BlockRec) (b : BlockRec) : Option UInt32 :=
  if b.parent = noParent then some 0xFFFFFFFF else (blocks[b.parent.toNat]?).map (·.endByte)

/-- The pass that refits the containers, at the block `i`. -/
def fit (nextStart : List (Option UInt32)) (reach : List UInt32) (blocks : List BlockRec)
    (i : Nat) : Option (List BlockRec) := do
  let b ← blocks[i]?
  if !isContainer b.kind then return blocks
  let parentEnd ← parentEnd blocks b
  let next ← nextStart[i]?
  if !(next.any (· < b.endByte) || parentEnd < b.endByte) then return blocks
  let e := min (max (← reach[i]?) b.startByte) (max parentEnd b.startByte)
  if e < b.endByte then
    return blocks.set i { b with endByte := e, endUtf16 := ex.li.u16 e.toNat }
  return blocks

/-- `Extractor::fit_overlapping_containers`. -/
def fitOverlappingContainers : Option Extractor := do
  let nextStart ← ex.nextStart
  let reach ← ex.reach
  let blocks ← (List.range' 1 (ex.blocks.length - 1)).foldlM (ex.fit nextStart reach) ex.blocks
  return { ex with blocks }

/-! ## The tree -/

/-- The block at an index of the list. -/
def block (i : Nat) : BlockRec := ex.blocks.getD i default

/-- A block is a child of another. -/
def IsChild (i p : Nat) : Prop :=
  i < ex.blocks.length ∧ (ex.block i).parent ≠ noParent ∧ (ex.block i).parent.toNat = p

/-- A block is the next child of another one's parent. -/
def NextSibling (i j : Nat) : Prop :=
  ∃ p, ex.IsChild i p ∧ ex.IsChild j p ∧ i < j ∧ ∀ k, i < k → k < j → ¬ex.IsChild k p

/-- Parents precede their children and hold them, and blocks hold their content. -/
structure Nested : Prop where
  precedes : ∀ i p, ex.IsChild i p → p < i
  inside : ∀ i p, ex.IsChild i p →
    (ex.block p).start ≤ (ex.block i).start ∧ (ex.block i).stop ≤ (ex.block p).stop
  content : ∀ i < ex.blocks.length, ∀ c ∈ ex.contentOf (ex.block i),
    (ex.block i).start ≤ c.startByte.toNat ∧ c.endByte.toNat ≤ (ex.block i).stop

/-- Something that a block holds reaches an offset: content of it or of a descendant, or a leaf. -/
inductive Reaches : Nat → Nat → Prop
  | content {i x : Nat} {c : ContentRec} (hi : i < ex.blocks.length)
      (hc : c ∈ ex.contentOf (ex.block i)) (hx : x ≤ c.endByte.toNat) : Reaches i x
  | leaf {i x : Nat} (hi : i < ex.blocks.length) (hleaf : isContainer (ex.block i).kind = false)
      (hx : x ≤ (ex.block i).stop) : Reaches i x
  | child {i c x : Nat} (hc : ex.IsChild c i) (h : Reaches c x) : Reaches i x

/-- The containers that are refitted: one overlaps its next sibling, or it is in a refitted one and
    runs past all that this one holds. -/
inductive Refits : Nat → Prop
  | overlap {i j : Nat} (hi : isContainer (ex.block i).kind = true) (hj : ex.NextSibling i j)
      (hlt : (ex.block j).start < (ex.block i).stop) : Refits i
  | within {i p : Nat} (hi : isContainer (ex.block i).kind = true) (hp : ex.IsChild i p)
      (h : Refits p) (hstart : (ex.block p).start < (ex.block i).stop)
      (hreach : ¬ex.Reaches p (ex.block i).stop) : Refits i

/-- The blocks `ex'` are those of `ex` with some containers refitted and nothing lost. -/
structure Refitted (ex' : Extractor) : Prop where
  others : ex' = { ex with blocks := ex'.blocks } ∧ ex'.blocks.length = ex.blocks.length
  ends : ∀ i < ex.blocks.length, ex'.block i = ex.block i ∨
    isContainer (ex.block i).kind = true ∧ ∃ e, (ex.block i).startByte ≤ e ∧
      e < (ex.block i).endByte ∧
        ex'.block i = { ex.block i with endByte := e, endUtf16 := ex.li.u16 e.toNat }
  inside : ∀ i p, ex'.IsChild i p →
    (ex'.block p).start ≤ (ex'.block i).start ∧ (ex'.block i).stop ≤ (ex'.block p).stop
  uncut : ∀ i a, i < ex.blocks.length → Relation.ReflTransGen ex.IsChild i a →
    (isContainer (ex.block i).kind = false → (ex.block i).stop ≤ (ex'.block a).stop) ∧
      ∀ c ∈ ex.contentOf (ex.block i), c.endByte.toNat ≤ (ex'.block a).stop
  overlaps : ∀ i j, isContainer (ex.block i).kind = true → ex.NextSibling i j →
    (ex'.block j).start < (ex'.block i).stop → ∃ x, (ex.block j).start < x ∧ ex.Reaches i x

/-- No container begins past what its refitted parent holds, or past its next sibling's start
    while it holds nothing there. (Where a range ends before it starts, its end counts.) -/
structure HoldsTogether : Prop where
  children : ∀ i p, isContainer (ex.block i).kind = true → ex.IsChild i p → ex.Refits p →
    (ex.block p).start < min (ex.block i).start (ex.block i).stop →
      ex.Reaches p (min (ex.block i).start (ex.block i).stop)
  siblings : ∀ i j, isContainer (ex.block i).kind = true → ex.NextSibling i j →
    (ex.block j).start < min (ex.block i).start (ex.block i).stop →
      ∃ x, (ex.block j).start < x ∧ ex.Reaches i x

variable {ex} {i j k p x : Nat}

theorem getElem?_block (hi : i < ex.blocks.length) : ex.blocks[i]? = some (ex.block i) := by
  rw [block, List.getD_eq_getElem _ _ hi, List.getElem?_eq_getElem hi]

theorem IsChild.unique {q : Nat} (h : ex.IsChild i p) (h' : ex.IsChild i q) : p = q :=
  h.2.2.symm.trans h'.2.2

theorem Nested.lt_length (h : ex.Nested) (hp : ex.IsChild i p) : p < ex.blocks.length :=
  (h.precedes i p hp).trans hp.1

end Extractor

/-! ## Siblings -/

/-- The blocks before `upto` are linked. -/
structure Links.LinkedTo (ex : Extractor) (upto : Nat) (w : Links) : Prop where
  nextLength : w.nextStart.length = ex.blocks.length
  lastLength : w.lastChild.length = ex.blocks.length + 1
  next : ∀ i s, w.nextStart[i]? = some (some s) ↔
    ∃ j < upto, ex.NextSibling i j ∧ (ex.block j).startByte = s
  last : ∀ i p, w.lastChild[p]? = some (some i) ↔
    i < upto ∧ ex.IsChild i p ∧ ∀ k, i < k → k < upto → ¬ex.IsChild k p

open Extractor

variable {ex : Extractor} {i j k p x : Nat}

theorem Links.LinkedTo.link {w : Links} (h : w.LinkedTo ex k) (hnested : ex.Nested)
    (hk : k < ex.blocks.length) : ∃ w', w.link ex.blocks k = some w' ∧ w'.LinkedTo ex (k + 1) := by
  simp only [Links.link, getElem?_block hk, Option.bind_eq_bind, Option.bind_some]
  split
  · -- A block without a parent is no one's sibling.
    next hparent =>
    have hnone : ∀ q, ¬ex.IsChild k q := fun q hq => hq.2.1 hparent
    refine ⟨w, rfl, h.nextLength, h.lastLength, fun i s => ?_, fun i q => ?_⟩
    · rw [h.next]
      refine ⟨fun ⟨j, hj, hs⟩ => ⟨j, by omega, hs⟩, fun ⟨j, hj, hnext, hs⟩ => ?_⟩
      obtain ⟨q, -, hq, -, -⟩ := id hnext
      have : j ≠ k := fun heq => hnone q (heq ▸ hq)
      exact ⟨j, by omega, hnext, hs⟩
    · rw [h.last]
      refine ⟨fun ⟨hi, hq, hlast⟩ => ⟨by omega, hq, fun l hl hlk => ?_⟩, fun ⟨hi, hq, hlast⟩ => ?_⟩
      · rcases Nat.lt_succ_iff_lt_or_eq.1 hlk with hlk | rfl
        · exact hlast l hl hlk
        · exact hnone q
      · have : i ≠ k := fun heq => hnone q (heq ▸ hq)
        exact ⟨by omega, hq, fun l hl hlk => hlast l hl (by omega)⟩
  next hparent =>
  generalize hp : (ex.block k).parent.toNat = p
  have hchild : ex.IsChild k p := ⟨hk, hparent, hp⟩
  have hlt : p < w.lastChild.length := by
    have := hnested.precedes k p hchild
    rw [h.lastLength]
    omega
  have hlast : ∀ i q, (w.lastChild.set p (some k))[q]? = some (some i) ↔
      i < k + 1 ∧ ex.IsChild i q ∧ ∀ l, i < l → l < k + 1 → ¬ex.IsChild l q := by
    intro i q
    by_cases heq : p = q
    · subst heq
      rw [List.getElem?_set_self hlt, Option.some_inj, Option.some_inj]
      refine ⟨?_, fun ⟨hi, _, hall⟩ => ?_⟩
      · rintro rfl
        exact ⟨by omega, hchild, fun l hl hlk => by omega⟩
      · by_contra hne
        exact hall k (by omega) (by omega) hchild
    · have hother : ¬ex.IsChild k q := fun hq => heq (hchild.unique hq)
      rw [List.getElem?_set_ne heq, h.last]
      refine ⟨fun ⟨hi, hq, hall⟩ => ⟨by omega, hq, fun l hl hlk => ?_⟩, fun ⟨hi, hq, hall⟩ => ?_⟩
      · rcases Nat.lt_succ_iff_lt_or_eq.1 hlk with hlk | rfl
        · exact hall l hl hlk
        · exact hother
      · have : i ≠ k := fun heq => hother (heq ▸ hq)
        exact ⟨by omega, hq, fun l hl hlk => hall l hl (by omega)⟩
  rw [List.getElem?_eq_getElem hlt]
  cases hprevious : w.lastChild[p] with
  | none =>
    -- The first child of its parent.
    refine ⟨_, rfl, h.nextLength, by rw [List.length_set, h.lastLength], fun i s => ?_, hlast⟩
    rw [h.next]
    refine ⟨fun ⟨j, hj, hs⟩ => ⟨j, by omega, hs⟩, fun ⟨j, hj, hnext, hs⟩ => ?_⟩
    rcases Nat.lt_succ_iff_lt_or_eq.1 hj with hj | rfl
    · exact ⟨j, hj, hnext, hs⟩
    · obtain ⟨q, hiq, hjq, hij, hall⟩ := hnext
      obtain rfl := hchild.unique hjq
      have := (h.last i p).2 ⟨hij, hiq, hall⟩
      rw [List.getElem?_eq_getElem hlt, hprevious] at this
      cases this
  | some previous =>
    obtain ⟨hpk, hprev, hall⟩ := (h.last previous p).1
      (by rw [List.getElem?_eq_getElem hlt, hprevious])
    refine ⟨_, rfl, by rw [List.length_set, h.nextLength], by rw [List.length_set, h.lastLength],
      fun i s => ?_, hlast⟩
    have hnextk : ∀ i, ex.NextSibling i k ↔ i = previous := by
      intro i
      refine ⟨fun ⟨q, hiq, hkq, hik, hbetween⟩ => ?_, ?_⟩
      · obtain rfl := hchild.unique hkq
        rcases Nat.lt_trichotomy i previous with hlt | rfl | hlt
        · exact absurd hprev (hbetween previous hlt hpk)
        · rfl
        · exact absurd hiq (hall i hlt hik)
      · rintro rfl
        exact ⟨p, hprev, hchild, hpk, hall⟩
    by_cases heq : previous = i
    · subst heq
      rw [List.getElem?_set_self (by rw [h.nextLength]; exact hprev.1), Option.some_inj,
        Option.some_inj]
      refine ⟨fun hs => ⟨k, by omega, (hnextk _).2 rfl, hs⟩, fun ⟨j, hj, hnext, hs⟩ => ?_⟩
      rcases Nat.lt_succ_iff_lt_or_eq.1 hj with hj | rfl
      · obtain ⟨q, hpq, hjq, hlt', -⟩ := hnext
        obtain rfl := hprev.unique hpq
        exact absurd hjq (hall j hlt' hj)
      · exact hs
    · rw [List.getElem?_set_ne heq, h.next]
      refine ⟨fun ⟨j, hj, hs⟩ => ⟨j, by omega, hs⟩, fun ⟨j, hj, hnext, hs⟩ => ?_⟩
      have : j ≠ k := fun hjk => heq ((hnextk i).1 (hjk ▸ hnext)).symm
      exact ⟨j, by omega, hnext, hs⟩

/-- The first pass finds where the next sibling of each block starts. -/
theorem nextStart_spec (hnested : ex.Nested) : ∃ nextStart, ex.nextStart = some nextStart ∧
    nextStart.length = ex.blocks.length ∧
      ∀ i s, nextStart[i]? = some (some s) ↔
        ∃ j, ex.NextSibling i j ∧ (ex.block j).startByte = s := by
  -- By induction on the blocks still to be linked, with what is linked so far as the invariant.
  have hrun : ∀ n k (w : Links), w.LinkedTo ex k → k + n ≤ ex.blocks.length →
      ∃ w', (List.range' k n).foldlM (Links.link ex.blocks) w = some w' ∧
        w'.LinkedTo ex (k + n) := by
    intro n
    induction n with
    | zero => exact fun k w h _ => ⟨w, rfl, h⟩
    | succ n ih =>
      intro k w h hle
      obtain ⟨w', hw', h'⟩ := h.link hnested (by omega)
      obtain ⟨w'', hw'', h''⟩ := ih (k + 1) w' h' (by omega)
      refine ⟨w'', ?_, by rwa [Nat.add_right_comm] at h''⟩
      rw [List.range'_succ, List.foldlM_cons, hw', Option.bind_eq_bind, Option.bind_some, hw'']
  have hstart : Links.LinkedTo ex (min 1 ex.blocks.length)
      ⟨List.replicate ex.blocks.length none, List.replicate (ex.blocks.length + 1) none⟩ := by
    refine ⟨by simp, by simp, fun i s => ?_, fun i q => ?_⟩
    · refine ⟨fun h => ?_, fun ⟨j, hj, ⟨q, _, _, hij, _⟩, _⟩ => by omega⟩
      rw [List.getElem?_replicate] at h
      split at h <;> cases h
    · refine ⟨fun h => ?_, fun ⟨hi, hq, _⟩ => ?_⟩
      · rw [List.getElem?_replicate] at h
        split at h <;> cases h
      · have := hnested.precedes i q hq
        omega
  obtain ⟨w, hw, hlinked⟩ :=
    hrun (ex.blocks.length - 1) (min 1 ex.blocks.length) _ hstart (by omega)
  have hrange : List.range' 1 (ex.blocks.length - 1) =
      List.range' (min 1 ex.blocks.length) (ex.blocks.length - 1) := by
    rcases Nat.eq_zero_or_pos ex.blocks.length with hzero | hpos
    · rw [hzero]
      rfl
    · rw [min_eq_left hpos]
  refine ⟨w.nextStart, ?_, hlinked.nextLength, fun i s => ?_⟩
  · rw [Extractor.nextStart, hrange, hw]
    rfl
  · rw [hlinked.next]
    refine ⟨fun ⟨j, _, h⟩ => ⟨j, h⟩, fun ⟨j, hnext, hs⟩ => ⟨j, ?_, hnext, hs⟩⟩
    obtain ⟨q, -, hj, -, -⟩ := hnext
    have := hj.1
    omega

/-! ## Reaches -/

theorem toNat_max (a b : UInt32) : (max a b).toNat = max a.toNat b.toNat := by
  change (if a ≤ b then b else a).toNat = _
  split
  · next h => exact (max_eq_right (UInt32.le_iff_toNat_le.1 h)).symm
  · next h => exact (max_eq_left (le_of_not_ge fun h' => h (UInt32.le_iff_toNat_le.2 h'))).symm

theorem toNat_min (a b : UInt32) : (min a b).toNat = min a.toNat b.toNat := by
  change (if a ≤ b then a else b).toNat = _
  split
  · next h => exact (min_eq_left (UInt32.le_iff_toNat_le.1 h)).symm
  · next h => exact (min_eq_right (le_of_not_ge fun h' => h (UInt32.le_iff_toNat_le.2 h'))).symm

/-- What a block itself reaches. -/
def OwnReaches (ex : Extractor) (b : BlockRec) (x : Nat) : Prop :=
  (∃ c ∈ ex.contentOf b, x ≤ c.endByte.toNat) ∨ isContainer b.kind = false ∧ x ≤ b.stop

theorem le_foldl_max (content : List ContentRec) (reach : UInt32) :
    x ≤ (content.foldl (fun reach c => max reach c.endByte) reach).toNat ↔
      x ≤ reach.toNat ∨ ∃ c ∈ content, x ≤ c.endByte.toNat := by
  induction content generalizing reach with
  | nil => simp
  | cons c content ih => rw [List.foldl_cons, ih, toNat_max, le_max_iff, or_assoc,
      List.exists_mem_cons_iff]

theorem le_ownReach (b : BlockRec) (reach : UInt32) :
    x ≤ (ex.ownReach b reach).toNat ↔ x ≤ reach.toNat ∨ OwnReaches ex b x := by
  rw [Extractor.ownReach, OwnReaches]
  split
  · next hkind => simp [le_foldl_max, hkind]
  · next hkind =>
    rw [toNat_max, le_max_iff, le_foldl_max, or_assoc]
    simp [hkind, BlockRec.stop]

theorem reaches_iff (hi : i < ex.blocks.length) :
    ex.Reaches i x ↔ OwnReaches ex (ex.block i) x ∨ ∃ c, ex.IsChild c i ∧ ex.Reaches c x := by
  refine ⟨fun h => ?_, ?_⟩
  · cases h with
    | content _ hc hx => exact Or.inl (Or.inl ⟨_, hc, hx⟩)
    | leaf _ hleaf hx => exact Or.inl (Or.inr ⟨hleaf, hx⟩)
    | child hc h => exact Or.inr ⟨_, hc, h⟩
  · rintro ((⟨c, hc, hx⟩ | ⟨hleaf, hx⟩) | ⟨c, hc, h⟩)
    · exact .content hi hc hx
    · exact .leaf hi hleaf hx
    · exact .child hc h

/-- The blocks from `k` on are measured: what they reach counts for them and their parents. -/
structure MeasuredFrom (ex : Extractor) (k : Nat) (reach : List UInt32) : Prop where
  length : reach.length = ex.blocks.length
  reaches : ∀ i r x, reach[i]? = some r → 0 < x → (x ≤ r.toNat ↔
    k ≤ i ∧ OwnReaches ex (ex.block i) x ∨ ∃ c, k ≤ c ∧ ex.IsChild c i ∧ ex.Reaches c x)

theorem MeasuredFrom.measure {reach : List UInt32} (h : MeasuredFrom ex (k + 1) reach)
    (hnested : ex.Nested) (hk : k < ex.blocks.length) :
    ∃ reach', ex.measure reach k = some reach' ∧ MeasuredFrom ex k reach' := by
  have hlt : k < reach.length := by rwa [h.length]
  simp only [Extractor.measure, getElem?_block hk, List.getElem?_eq_getElem hlt,
    Option.bind_eq_bind, Option.bind_some]
  generalize hown : ex.ownReach (ex.block k) reach[k] = own
  -- All children of the block are measured, so that it is as well.
  have hreaches : ∀ x, 0 < x → (x ≤ own.toNat ↔ ex.Reaches k x) := by
    intro x hx
    rw [← hown, le_ownReach, h.reaches k _ x (List.getElem?_eq_getElem hlt) hx, reaches_iff hk]
    constructor
    · rintro ((⟨hle, _⟩ | ⟨c, _, hc, hcx⟩) | hx)
      · omega
      · exact Or.inr ⟨c, hc, hcx⟩
      · exact Or.inl hx
    · rintro (hx | ⟨c, hc, hcx⟩)
      · exact Or.inr hx
      · exact Or.inl (Or.inr ⟨c, hnested.precedes c k hc, hc, hcx⟩)
  have hself : ∀ x, 0 < x → (x ≤ own.toNat ↔ k ≤ k ∧ OwnReaches ex (ex.block k) x ∨
      ∃ c, k ≤ c ∧ ex.IsChild c k ∧ ex.Reaches c x) := by
    intro x hx
    rw [hreaches x hx, reaches_iff hk]
    refine or_congr (by simp) ⟨fun ⟨c, hc, hcx⟩ => ⟨c, ?_, hc, hcx⟩, fun ⟨c, _, hc⟩ => ⟨c, hc⟩⟩
    exact (hnested.precedes c k hc).le
  -- The blocks that are no parent of it are as they were.
  have hothers : ∀ i, i ≠ k → ¬ex.IsChild k i → ∀ r x, reach[i]? = some r → 0 < x →
      (x ≤ r.toNat ↔ k ≤ i ∧ OwnReaches ex (ex.block i) x ∨
        ∃ c, k ≤ c ∧ ex.IsChild c i ∧ ex.Reaches c x) := by
    intro i hne hchild r x hr hx
    rw [h.reaches i r x hr hx]
    refine or_congr (and_congr_left fun _ => by omega) ⟨fun ⟨c, hc, hci⟩ => ⟨c, by omega, hci⟩,
      fun ⟨c, hc, hci⟩ => ⟨c, ?_, hci⟩⟩
    have : c ≠ k := fun heq => hchild (heq ▸ hci.1)
    omega
  split
  · next hparent =>
    refine ⟨_, rfl, by rw [List.length_set, h.length], fun i r x hr hx => ?_⟩
    by_cases hik : k = i
    · subst hik
      rw [List.getElem?_set_self hlt] at hr
      obtain rfl := Option.some_inj.1 hr
      exact hself x hx
    · rw [List.getElem?_set_ne hik] at hr
      exact hothers i (Ne.symm hik) (fun hc => hc.2.1 hparent) r x hr hx
  · next hparent =>
    generalize hp : (ex.block k).parent.toNat = p
    have hchild : ex.IsChild k p := ⟨hk, hparent, hp⟩
    have hpk := hnested.precedes k p hchild
    have hplt : p < reach.length := by omega
    rw [List.getElem?_set_ne (by omega), List.getElem?_eq_getElem hplt, Option.bind_some]
    refine ⟨_, rfl, by rw [List.length_set, List.length_set, h.length], fun i r x hr hx => ?_⟩
    by_cases hip : p = i
    · -- The parent reaches what it did, and what the block does.
      subst hip
      rw [List.getElem?_set_self (by rwa [List.length_set])] at hr
      obtain rfl := Option.some_inj.1 hr
      rw [toNat_max, le_max_iff, h.reaches p _ x (List.getElem?_eq_getElem hplt) hx, hreaches x hx]
      constructor
      · rintro ((⟨hle, _⟩ | ⟨c, hc, hci⟩) | hx)
        · omega
        · exact Or.inr ⟨c, by omega, hci⟩
        · exact Or.inr ⟨k, le_rfl, hchild, hx⟩
      · rintro (⟨hle, _⟩ | ⟨c, hc, hci, hcx⟩)
        · omega
        · rcases Nat.eq_or_lt_of_le hc with rfl | hlt
          · exact Or.inr hcx
          · exact Or.inl (Or.inr ⟨c, hlt, hci, hcx⟩)
    rw [List.getElem?_set_ne hip] at hr
    by_cases hik : k = i
    · subst hik
      rw [List.getElem?_set_self hlt] at hr
      obtain rfl := Option.some_inj.1 hr
      exact hself x hx
    · rw [List.getElem?_set_ne hik] at hr
      exact hothers i (Ne.symm hik) (fun hc => hip (hchild.unique hc)) r x hr hx

/-- The second pass measures how far the blocks reach. -/
theorem reach_spec (hnested : ex.Nested) : ∃ reach, ex.reach = some reach ∧
    reach.length = ex.blocks.length ∧
      ∀ i r x, reach[i]? = some r → 0 < x → (x ≤ r.toNat ↔ ex.Reaches i x) := by
  have hrun : ∀ k (reach : List UInt32), MeasuredFrom ex k reach → k ≤ ex.blocks.length →
      ∃ reach', (List.range k).reverse.foldlM ex.measure reach = some reach' ∧
        MeasuredFrom ex 0 reach' := by
    intro k
    induction k with
    | zero => exact fun reach h _ => ⟨reach, rfl, h⟩
    | succ k ih =>
      intro reach h hle
      obtain ⟨reach', hreach', h'⟩ := h.measure hnested hle
      obtain ⟨reach'', hreach'', h''⟩ := ih reach' h' (by omega)
      refine ⟨reach'', ?_, h''⟩
      rw [List.range_succ, List.reverse_append, List.reverse_singleton, List.singleton_append,
        List.foldlM_cons, hreach', Option.bind_eq_bind, Option.bind_some, hreach'']
  have hstart : MeasuredFrom ex ex.blocks.length (List.replicate ex.blocks.length 0) := by
    refine ⟨by simp, fun i r x hr hx => ?_⟩
    rw [List.getElem?_replicate] at hr
    split at hr
    · obtain rfl := Option.some_inj.1 hr
      refine ⟨fun h => absurd h (Nat.not_le.2 hx), ?_⟩
      rintro (⟨hle, _⟩ | ⟨c, hle, hc, _⟩)
      · omega
      · have := hc.1
        omega
    · cases hr
  obtain ⟨reach, hreach, hmeasured⟩ := hrun _ _ hstart le_rfl
  refine ⟨reach, hreach, hmeasured.length, fun i r x hr hx => ?_⟩
  have hi : i < ex.blocks.length := hmeasured.length ▸ (List.getElem?_eq_some_iff.1 hr).1
  rw [hmeasured.reaches i r x hr hx, reaches_iff hi]
  simp

/-- What is reached from a block is inside it. -/
theorem Extractor.Reaches.le_stop (h : ex.Reaches i x) (hnested : ex.Nested) :
    x ≤ (ex.block i).stop := by
  induction h with
  | content hi hc hx => exact hx.trans (hnested.content _ hi _ hc).2
  | leaf _ _ hx => exact hx
  | child hc _ ih => exact ih.trans (hnested.inside _ _ hc).2

theorem Extractor.Refits.isContainer (h : ex.Refits i) : isContainer (ex.block i).kind = true := by
  cases h with
  | overlap hi _ _ => exact hi
  | within hi _ _ _ _ => exact hi

/-- A refitted block has a parent. -/
theorem Extractor.Refits.exists_parent (h : ex.Refits i) : ∃ p, ex.IsChild i p := by
  cases h with
  | overlap _ hj _ =>
    obtain ⟨p, hp, -⟩ := hj
    exact ⟨p, hp⟩
  | within _ hp _ _ _ => exact ⟨_, hp⟩

/-! ## The containers -/

/-- What the two passes found. -/
structure Surveyed (ex : Extractor) (nextStart : List (Option UInt32)) (reach : List UInt32) :
    Prop where
  nextLength : nextStart.length = ex.blocks.length
  next : ∀ i s, nextStart[i]? = some (some s) ↔ ∃ j, ex.NextSibling i j ∧ (ex.block j).startByte = s
  reachLength : reach.length = ex.blocks.length
  reaches : ∀ i r x, reach[i]? = some r → 0 < x → (x ≤ r.toNat ↔ ex.Reaches i x)

variable {nextStart : List (Option UInt32)} {reach : List UInt32}

theorem Surveyed.le_stop (h : Surveyed ex nextStart reach) (hnested : ex.Nested) {r : UInt32}
    (hr : reach[i]? = some r) : r.toNat ≤ (ex.block i).stop := by
  rcases Nat.eq_zero_or_pos r.toNat with hzero | hpos
  · omega
  · exact ((h.reaches i r _ hr hpos).1 le_rfl).le_stop hnested

theorem Surveyed.le_parent (h : Surveyed ex nextStart reach) (hp : ex.IsChild i p) {r s : UInt32}
    (hr : reach[i]? = some r) (hs : reach[p]? = some s) : r.toNat ≤ s.toNat := by
  rcases Nat.eq_zero_or_pos r.toNat with hzero | hpos
  · omega
  · exact (h.reaches p s _ hs hpos).2 (.child hp ((h.reaches i r _ hr hpos).1 le_rfl))

/-- What a block becomes: if it is refitted, it ends where what it holds does. -/
structure FittedTo (ex : Extractor) (reach : List UInt32) (i : Nat) (b : BlockRec) : Prop where
  kept : ¬ex.Refits i → b = ex.block i
  stop : ex.Refits i → ∀ r, reach[i]? = some r →
    b.stop = min (ex.block i).stop (max (ex.block i).start r.toNat)
  ends : b = ex.block i ∨ isContainer (ex.block i).kind = true ∧ ∃ e,
    (ex.block i).startByte ≤ e ∧ e < (ex.block i).endByte ∧
      b = { ex.block i with endByte := e, endUtf16 := ex.li.u16 e.toNat }

/-- The blocks before `upto` are fitted. -/
structure FittedUpTo (ex : Extractor) (reach : List UInt32) (upto : Nat)
    (blocks : List BlockRec) : Prop where
  length : blocks.length = ex.blocks.length
  fitted : ∀ i b, i < upto → blocks[i]? = some b → FittedTo ex reach i b
  rest : ∀ i, upto ≤ i → blocks[i]? = ex.blocks[i]?

/-- The end of a fitted parent, and when a child runs past it. -/
theorem FittedTo.parent {b : BlockRec} {r : UInt32} (h : FittedTo ex reach p b)
    (hsurveyed : Surveyed ex nextStart reach) (hnested : ex.Nested) (hp : ex.IsChild i p)
    (hr : reach[i]? = some r) :
    r.toNat ≤ b.stop ∧ (b.stop < (ex.block i).stop ↔ ex.Refits p ∧
      (ex.block p).start < (ex.block i).stop ∧ ¬ex.Reaches p (ex.block i).stop) := by
  have hlt : p < reach.length := by
    rw [hsurveyed.reachLength]
    exact hnested.lt_length hp
  have hs := List.getElem?_eq_getElem hlt
  have hle := (hnested.inside i p hp).2
  have hreach := hsurveyed.le_parent hp hr hs
  have hstop := hsurveyed.le_stop hnested hs
  by_cases hrefits : ex.Refits p
  · rw [h.stop hrefits _ hs]
    have hiff := hsurveyed.reaches p _ (ex.block i).stop hs
    refine ⟨by omega, fun hlt' => ⟨hrefits, by omega, fun hreaches => ?_⟩,
      fun ⟨_, hstart, hreaches⟩ => ?_⟩
    · have := (hiff (by omega)).2 hreaches
      omega
    · have := mt (hiff (by omega)).1 hreaches
      omega
  · rw [h.kept hrefits]
    exact ⟨by omega, fun hlt' => absurd hlt' (Nat.not_lt.2 hle), fun h => absurd h.1 hrefits⟩

/-- The test of the third pass is for the containers that are refitted. -/
theorem FittedUpTo.parentEnd {blocks : List BlockRec} (h : FittedUpTo ex reach i blocks)
    (hsurveyed : Surveyed ex nextStart reach) (hnested : ex.Nested) (hi : i < ex.blocks.length)
    (hkind : isContainer (ex.block i).kind = true) {r : UInt32} {next : Option UInt32}
    (hr : reach[i]? = some r) (hnext : nextStart[i]? = some next) :
    ∃ parentEnd, Extractor.parentEnd blocks (ex.block i) = some parentEnd ∧
      r.toNat ≤ parentEnd.toNat ∧ (ex.Refits i ↔
        (next.any (· < (ex.block i).endByte) || parentEnd < (ex.block i).endByte) = true) := by
  have hover : (∃ j, ex.NextSibling i j ∧ (ex.block j).start < (ex.block i).stop) ↔
      next.any (· < (ex.block i).endByte) = true := by
    rw [Option.any_eq_true]
    constructor
    · rintro ⟨j, hj, hlt⟩
      have := (hsurveyed.next i _).2 ⟨j, hj, rfl⟩
      exact ⟨_, Option.some_inj.1 (hnext.symm.trans this),
        decide_eq_true (UInt32.lt_iff_toNat_lt.2 hlt)⟩
    · rintro ⟨s, rfl, hlt⟩
      obtain ⟨j, hj, rfl⟩ := (hsurveyed.next i s).1 hnext
      exact ⟨j, hj, UInt32.lt_iff_toNat_lt.1 (of_decide_eq_true hlt)⟩
  rw [Extractor.parentEnd]
  split
  · -- A block without a parent has no sibling, and no end to run past.
    next hparent =>
    have hnone : ∀ p, ¬ex.IsChild i p := fun p hp => hp.2.1 hparent
    refine ⟨_, rfl, ?_, ?_⟩
    · exact Nat.le_of_lt_succ r.toNat_lt
    · rw [Bool.or_eq_true, ← hover, decide_eq_true_eq]
      refine ⟨fun hrefits => ?_, ?_⟩
      · obtain ⟨p, hp⟩ := hrefits.exists_parent
        exact absurd hp (hnone p)
      · rintro (⟨j, ⟨p, hp, _⟩, _⟩ | hlt)
        · exact absurd hp (hnone p)
        · exact absurd (UInt32.lt_iff_toNat_lt.1 hlt)
            (Nat.not_lt.2 (Nat.le_of_lt_succ (ex.block i).endByte.toNat_lt))
  · next hparent =>
    have hp : ex.IsChild i (ex.block i).parent.toNat := ⟨hi, hparent, rfl⟩
    have hpi := hnested.precedes i _ hp
    have hb := List.getElem?_eq_getElem
      (show (ex.block i).parent.toNat < blocks.length by rw [h.length]; omega)
    have hend := (h.fitted _ _ hpi hb).parent hsurveyed hnested hp hr
    rw [hb]
    refine ⟨_, rfl, hend.1, ?_⟩
    rw [Bool.or_eq_true, ← hover, decide_eq_true_eq, UInt32.lt_iff_toNat_lt]
    change _ ↔ _ ∨ BlockRec.stop _ < BlockRec.stop _
    rw [hend.2]
    refine ⟨fun hrefits => ?_, ?_⟩
    · cases hrefits with
      | overlap _ hj hlt => exact Or.inl ⟨_, hj, hlt⟩
      | within _ hp' hrefits hstart hreach =>
        obtain rfl := hp.unique hp'
        exact Or.inr ⟨hrefits, hstart, hreach⟩
    · rintro (⟨j, hj, hlt⟩ | ⟨hrefits, hstart, hreach⟩)
      · exact .overlap hkind hj hlt
      · exact .within hkind hp hrefits hstart hreach

/-- The third pass fits the block at hand. -/
theorem FittedUpTo.step {blocks : List BlockRec} (h : FittedUpTo ex reach i blocks)
    (hsurveyed : Surveyed ex nextStart reach) (hnested : ex.Nested) (hi : i < ex.blocks.length) :
    ∃ blocks', ex.fit nextStart reach blocks i = some blocks' ∧
      FittedUpTo ex reach (i + 1) blocks' := by
  -- A block that stays as it is.
  have hstay : (ex.Refits i → ∀ r, reach[i]? = some r → (ex.block i).stop =
      min (ex.block i).stop (max (ex.block i).start r.toNat)) →
        FittedUpTo ex reach (i + 1) blocks := by
    intro hstop
    refine ⟨h.length, fun j b hj hb => ?_, fun j hj => h.rest j (by omega)⟩
    rcases Nat.lt_succ_iff_lt_or_eq.1 hj with hj | rfl
    · exact h.fitted j b hj hb
    · rw [h.rest j le_rfl, getElem?_block hi] at hb
      obtain rfl := Option.some_inj.1 hb
      exact ⟨fun _ => rfl, hstop, Or.inl rfl⟩
  have hb : blocks[i]? = some (ex.block i) := (h.rest i le_rfl).trans (getElem?_block hi)
  obtain ⟨r, hr⟩ : ∃ r, reach[i]? = some r :=
    ⟨_, List.getElem?_eq_getElem (by rwa [hsurveyed.reachLength])⟩
  obtain ⟨next, hnext⟩ : ∃ next, nextStart[i]? = some next :=
    ⟨_, List.getElem?_eq_getElem (by rwa [hsurveyed.nextLength])⟩
  simp only [Extractor.fit, hb, hr, hnext, Option.bind_eq_bind, Option.bind_some]
  cases hkind : isContainer (ex.block i).kind with
  | false =>
    refine ⟨blocks, rfl, hstay fun hrefits => ?_⟩
    rw [hrefits.isContainer] at hkind
    cases hkind
  | true =>
    obtain ⟨parentEnd, hparent, hle, hfits⟩ := h.parentEnd hsurveyed hnested hi hkind hr hnext
    simp only [hparent, Option.bind_some, Bool.not_true, Bool.false_eq_true, if_false]
    split
    · next hcalm =>
      rw [Bool.not_eq_true', ← Bool.not_eq_true, ← hfits] at hcalm
      exact ⟨blocks, rfl, hstay fun hrefits => absurd hrefits hcalm⟩
    next hruns =>
    have hrefits : ex.Refits i := by
      rwa [Bool.not_eq_true', Bool.not_eq_false, ← hfits] at hruns
    generalize he : min (max r (ex.block i).startByte) (max parentEnd (ex.block i).startByte) = e
    have heq : e.toNat = max (ex.block i).start r.toNat := by
      rw [← he, toNat_min, toNat_max, toNat_max]
      change min (max r.toNat (ex.block i).start) (max parentEnd.toNat (ex.block i).start) = _
      omega
    split
    · next hlt =>
      have hlt' : e.toNat < (ex.block i).stop := UInt32.lt_iff_toNat_lt.1 hlt
      refine ⟨_, rfl, by rw [List.length_set, h.length], fun j b hj hb => ?_, fun j hj => ?_⟩
      · rcases Nat.lt_succ_iff_lt_or_eq.1 hj with hj | rfl
        · rw [List.getElem?_set_ne (by omega)] at hb
          exact h.fitted j b hj hb
        · rw [List.getElem?_set_self (by rwa [h.length])] at hb
          obtain rfl := Option.some_inj.1 hb
          refine ⟨fun hnot => absurd hrefits hnot, fun _ r' hr' => ?_,
            Or.inr ⟨hkind, e, ?_, hlt, rfl⟩⟩
          · obtain rfl := Option.some_inj.1 (hr.symm.trans hr')
            change e.toNat = _
            omega
          · rw [UInt32.le_iff_toNat_le, heq]
            exact Nat.le_max_left _ _
      · rw [List.getElem?_set_ne (by omega), h.rest j (by omega)]
    · next hge =>
      have hge' : ¬e.toNat < (ex.block i).stop := fun h => hge (UInt32.lt_iff_toNat_lt.2 h)
      refine ⟨blocks, rfl, hstay fun _ r' hr' => ?_⟩
      obtain rfl := Option.some_inj.1 (hr.symm.trans hr')
      omega

/-- The pass answers, and it fits every block. -/
theorem fit_spec (hnested : ex.Nested) : ∃ ex' nextStart reach,
    ex.fitOverlappingContainers = some ex' ∧ ex' = { ex with blocks := ex'.blocks } ∧
      Surveyed ex nextStart reach ∧ FittedUpTo ex reach ex.blocks.length ex'.blocks := by
  obtain ⟨nextStart, hnext, hnextLength, hnexts⟩ := nextStart_spec hnested
  obtain ⟨reach, hreach, hreachLength, hreaches⟩ := reach_spec hnested
  have hsurveyed : Surveyed ex nextStart reach := ⟨hnextLength, hnexts, hreachLength, hreaches⟩
  have hrun : ∀ n k (blocks : List BlockRec), FittedUpTo ex reach k blocks →
      k + n ≤ ex.blocks.length →
      ∃ blocks', (List.range' k n).foldlM (ex.fit nextStart reach) blocks = some blocks' ∧
        FittedUpTo ex reach (k + n) blocks' := by
    intro n
    induction n with
    | zero => exact fun k blocks h _ => ⟨blocks, rfl, h⟩
    | succ n ih =>
      intro k blocks h hle
      obtain ⟨blocks', hblocks', h'⟩ := h.step hsurveyed hnested (by omega)
      obtain ⟨blocks'', hblocks'', h''⟩ := ih (k + 1) blocks' h' (by omega)
      refine ⟨blocks'', ?_, by rwa [Nat.add_right_comm] at h''⟩
      rw [List.range'_succ, List.foldlM_cons, hblocks', Option.bind_eq_bind, Option.bind_some,
        hblocks'']
  -- The first block has no parent, and so it is not refitted.
  have hstart : FittedUpTo ex reach (min 1 ex.blocks.length) ex.blocks := by
    refine ⟨rfl, fun i b hi hb => ?_, fun i _ => rfl⟩
    rw [getElem?_block (by omega)] at hb
    obtain rfl := Option.some_inj.1 hb
    refine ⟨fun _ => rfl, fun hrefits => ?_, Or.inl rfl⟩
    obtain ⟨p, hp⟩ := hrefits.exists_parent
    have := hnested.precedes i p hp
    omega
  obtain ⟨blocks, hblocks, hfitted⟩ := hrun (ex.blocks.length - 1) _ _ hstart (by omega)
  refine ⟨{ ex with blocks }, nextStart, reach, ?_, rfl, hsurveyed, hfitted.length,
    fun i b hi hb => hfitted.fitted i b (by omega) hb, fun i hi => hfitted.rest i (by omega)⟩
  rcases Nat.eq_zero_or_pos ex.blocks.length with hzero | hpos
  · rw [hzero] at hblocks
    obtain rfl := Option.some_inj.1 hblocks
    rw [Extractor.fitOverlappingContainers, hnext, hreach, hzero]
    rfl
  · rw [min_eq_left hpos] at hblocks
    rw [Extractor.fitOverlappingContainers, hnext, hreach, Option.bind_eq_bind, Option.bind_some,
      Option.bind_eq_bind, Option.bind_some, hblocks]
    rfl

/-! ## What the refitted blocks are -/

namespace FittedTo

variable {b : BlockRec}

theorem start_eq (h : FittedTo ex reach i b) : b.start = (ex.block i).start := by
  rcases h.ends with rfl | ⟨_, e, _, _, rfl⟩ <;> rfl

theorem parent_eq (h : FittedTo ex reach i b) : b.parent = (ex.block i).parent := by
  rcases h.ends with rfl | ⟨_, e, _, _, rfl⟩ <;> rfl

theorem stop_le (h : FittedTo ex reach i b) : b.stop ≤ (ex.block i).stop := by
  rcases h.ends with rfl | ⟨_, e, _, hlt, rfl⟩
  · exact le_rfl
  · exact (UInt32.lt_iff_toNat_lt.1 hlt).le

/-- A fitted block holds all that it reaches. -/
theorem le_stop (h : FittedTo ex reach i b) (hsurveyed : Surveyed ex nextStart reach)
    (hnested : ex.Nested) (hi : i < ex.blocks.length) (hx : ex.Reaches i x) : x ≤ b.stop := by
  rcases Nat.eq_zero_or_pos x with rfl | hpos
  · exact Nat.zero_le _
  have hr := List.getElem?_eq_getElem (show i < reach.length by rwa [hsurveyed.reachLength])
  have hle := (hsurveyed.reaches i _ x hr hpos).2 hx
  have hstop := hsurveyed.le_stop hnested hr
  by_cases hrefits : ex.Refits i
  · rw [h.stop hrefits _ hr]
    omega
  · rw [h.kept hrefits]
    omega

end FittedTo

theorem Extractor.Reaches.ancestor {a d : Nat} (h : Relation.ReflTransGen ex.IsChild d a)
    (hx : ex.Reaches d x) : ex.Reaches a x := by
  induction h with
  | refl => exact hx
  | tail _ hc ih => exact .child hc ih

/-- Blocks are given in which parents precede their children and hold them, and which hold their
    content. The pass answers with the refitted blocks: only containers change, and only their
    ends, down to their starts at most; children are inside their parents, no ancestor of a leaf or
    of content ends before it, and a container that overlaps its next sibling holds something past
    its start. This is so if and only if the containers hold together. -/
theorem fit_refitted_iff (hnested : ex.Nested) : ∃ ex', ex.fitOverlappingContainers = some ex' ∧
    (ex.Refitted ex' ↔ ex.HoldsTogether) := by
  obtain ⟨ex', nextStart, reach, hfit, hothers, hsurveyed, hfitted⟩ := fit_spec hnested
  refine ⟨ex', hfit, ?_⟩
  -- What the third pass makes of each block is said by what the second has found it to reach.
  have hblock : ∀ i, i < ex.blocks.length → FittedTo ex reach i (ex'.block i) := fun i hi =>
    hfitted.fitted i _ hi (getElem?_block (by rwa [hfitted.length]))
  have hchild : ∀ i p, ex'.IsChild i p ↔ ex.IsChild i p := by
    intro i p
    rw [IsChild, IsChild, hfitted.length]
    refine and_congr_right fun hi => ?_
    rw [(hblock i hi).parent_eq]
  have hreach : ∀ i, i < ex.blocks.length → ∃ r, reach[i]? = some r := fun i hi =>
    ⟨_, List.getElem?_eq_getElem (by rwa [hsurveyed.reachLength])⟩
  constructor
  · refine fun h => ⟨fun i p hkind hp hrefits hstart => ?_, fun i j hkind hj hlt => ?_⟩
    · -- A container that begins past what its parent holds is refitted to begin there still.
      by_contra hnot
      have hpl := hnested.lt_length hp
      obtain ⟨r, hr⟩ := hreach i hp.1
      obtain ⟨s, hs⟩ := hreach p hpl
      have hs' := mt (hsurveyed.reaches p s _ hs (Nat.zero_lt_of_lt hstart)).1 hnot
      have hstop := (hblock p hpl).stop hrefits s hs
      have hlt : (ex'.block p).stop < (ex.block i).stop := by omega
      obtain ⟨-, hstart', hreach'⟩ := ((hblock p hpl).parent hsurveyed hnested hp hr).2.1 hlt
      have hstop' := (hblock i hp.1).stop (.within hkind hp hrefits hstart' hreach') r hr
      have := (h.inside i p ((hchild i p).2 hp)).2
      omega
    · obtain ⟨q, hi, hjq, -⟩ := id hj
      obtain ⟨r, hr⟩ := hreach i hi.1
      have hstop := (hblock i hi.1).stop (.overlap hkind hj (by omega)) r hr
      refine h.overlaps i j hkind hj ?_
      rw [(hblock j hjq.1).start_eq]
      omega
  · intro h
    refine ⟨⟨hothers, hfitted.length⟩, fun i hi => (hblock i hi).ends, fun i p hp => ?_,
      fun i a hi ha => ?_, fun i j hkind hj hlt => ?_⟩
    · rw [hchild] at hp
      have hpl := hnested.lt_length hp
      obtain ⟨r, hr⟩ := hreach i hp.1
      obtain ⟨s, hs⟩ := hreach p hpl
      rw [(hblock i hp.1).start_eq, (hblock p hpl).start_eq]
      refine ⟨(hnested.inside i p hp).1, ?_⟩
      have hle := (hblock i hp.1).stop_le
      obtain ⟨hrp, hiff⟩ := (hblock p hpl).parent hsurveyed hnested hp hr
      by_contra hnot
      obtain ⟨hrefits, hstart, hreach'⟩ := hiff.1 (by omega)
      cases hkind : isContainer (ex.block i).kind with
      | false => exact hreach' (.child hp (.leaf hp.1 hkind le_rfl))
      | true =>
        have hstop := (hblock i hp.1).stop (.within hkind hp hrefits hstart hreach') r hr
        have hstop' := (hblock p hpl).stop hrefits s hs
        have hpin := (hnested.inside i p hp).2
        have hholds := h.children i p hkind hp hrefits (by omega)
        have := (hsurveyed.reaches p s _ hs (by omega)).2 hholds
        omega
    · have hal : a < ex.blocks.length := by
        rcases Relation.ReflTransGen.cases_tail ha with rfl | ⟨c, _, hc⟩
        · exact hi
        · exact hnested.lt_length hc
      refine ⟨fun hleaf => ?_, fun c hc => ?_⟩
      · exact (hblock a hal).le_stop hsurveyed hnested hal
          (Reaches.ancestor ha (.leaf hi hleaf le_rfl))
      · exact (hblock a hal).le_stop hsurveyed hnested hal
          (Reaches.ancestor ha (.content hi hc le_rfl))
    · obtain ⟨q, hi, hjq, -⟩ := id hj
      obtain ⟨r, hr⟩ := hreach i hi.1
      rw [(hblock j hjq.1).start_eq] at hlt
      have hle := (hblock i hi.1).stop_le
      have hstop := (hblock i hi.1).stop (.overlap hkind hj (by omega)) r hr
      rcases Nat.lt_or_ge (ex.block j).start r.toNat with hr' | hr'
      · exact ⟨r.toNat, hr', (hsurveyed.reaches i r _ hr (by omega)).1 le_rfl⟩
      · exact h.siblings i j hkind hj (by omega)

/-- The blocks of a list and a heading, `- a`, `- [b]: /u` and `# x`, whose list ends a line too
    far: its last item holds a definition, and so no block. -/
def definitionItem : Extractor :=
  let record (kind parent start stop contentOffset contentCount : UInt32) : BlockRec :=
    { (default : BlockRec) with
      kind := kind, parent := parent, startByte := start, endByte := stop, startUtf16 := start,
      endUtf16 := stop, contentOffset := contentOffset, contentCount := contentCount }
  let line (line start stop : UInt32) : ContentRec :=
    ⟨line, start, start, stop, stop, 0, start, start⟩
  { (default : Extractor) with
    src := [0x2D, 0x20, 0x61, 0x0A, 0x2D, 0x20, 0x5B, 0x62, 0x5D, 0x3A, 0x20, 0x2F, 0x75, 0x0A,
      0x23, 0x20, 0x78]
    li := ⟨[0, 4, 14], [3, 13, 17], (List.range 18).map Nat.toUInt32⟩
    blocks := [record 0 noParent 0 17 0 0, record 6 0 0 17 0 0, record 7 1 0 3 0 0,
      record 1 2 2 3 0 1, record 7 1 4 17 0 0, record 2 0 14 17 1 1]
    content := [line 0 2 3, line 2 16 17] }

theorem definitionItem_nested : definitionItem.Nested := by
  have hall : ∀ i < 6, ((definitionItem.block i).parent ≠ noParent →
      (definitionItem.block i).parent.toNat < i ∧
        (definitionItem.block (definitionItem.block i).parent.toNat).start ≤
          (definitionItem.block i).start ∧ (definitionItem.block i).stop ≤
            (definitionItem.block (definitionItem.block i).parent.toNat).stop) ∧
      ∀ c ∈ definitionItem.contentOf (definitionItem.block i),
        (definitionItem.block i).start ≤ c.startByte.toNat ∧
          c.endByte.toNat ≤ (definitionItem.block i).stop := by
    decide
  refine ⟨?_, ?_, fun i hi => (hall i hi).2⟩
  · rintro i p ⟨hi, hparent, rfl⟩
    exact ((hall i hi).1 hparent).1
  · rintro i p ⟨hi, hparent, rfl⟩
    exact ((hall i hi).1 hparent).2

theorem fit_refitted_iff_definitionItem :
    ∃ ex', definitionItem.fitOverlappingContainers = some ex' ∧
      (definitionItem.Refitted ex' ↔ definitionItem.HoldsTogether) :=
  fit_refitted_iff definitionItem_nested

/-- The list ends with its first item, and the other item is left behind its end. -/
theorem definitionItem_not_refitted : definitionItem.Nested ∧
    ∃ ex', definitionItem.fitOverlappingContainers = some ex' ∧
      ex'.blocks.map (fun b => (b.start, b.stop)) =
        [(0, 17), (0, 3), (0, 3), (2, 3), (4, 4), (14, 17)] ∧ ¬definitionItem.Refitted ex' := by
  refine ⟨definitionItem_nested, _, rfl, by decide, fun h => ?_⟩
  have hinside := (h.inside 4 1 ⟨by decide, by decide, by decide⟩).2
  exact absurd hinside (by decide)

end Flark.Native
