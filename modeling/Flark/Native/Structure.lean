import Flark.Native.Records
import Mathlib.Data.List.GetD
import Mathlib.Data.Nat.Find
import Mathlib.Order.Nat

/-!
# The structure check

Before a model is published, `check_structure` goes over the records in three passes:
the block tree, the content records of each block, and the runs. A block is compared
with the sibling before it that `sibling` remembers under its parent.

* `structureProblem_eq_none`: what records without a problem satisfy (`Structure`);
  siblings are only apart from the one before them;
* `Structure.overlap`: how two siblings can overlap all the same: the later one
  follows empty siblings that start where the earlier one, which is not empty, does;
* `wellStructured_iff`: when records without a problem are well structured (`WellStructured`).
-/

namespace Flark.Native

/-! ## The check -/

/-- `LineIndex::line_end_with_break`: where the next line starts. -/
def LineIndex.lineEndWithBreak (li : LineIndex) (line0 srcLen : Nat) : Nat :=
  if line0 + 1 < li.lineStarts.length then li.lineStarts.getD (line0 + 1) 0 else srcLen

/-- What a check found: the rule broken, and the records that break it. -/
structure Problem where
  rule : String
  detail : String
  deriving DecidableEq, Repr

/-- What the pass over the blocks remembers: the range of the last child under each
    parent, and where the block before starts. -/
structure TreeWalk where
  sibling : List (Nat × Nat)
  previousStart : Nat

namespace BlockRec

def start (b : BlockRec) : Nat := b.startByte.toNat

def stop (b : BlockRec) : Nat := b.endByte.toNat

end BlockRec

/-- One turn of the pass over the blocks. -/
def blockProblem (blocks : List BlockRec) (srcLen : Nat) (w : TreeWalk) (i : Nat)
    (b : BlockRec) : Option Problem :=
  let s := b.start
  let e := b.stop
  if e < s ∨ srcLen < e then some ⟨"block-tree", s!"block {i} range {s}..{e}"⟩
  else if i = 0 then none
  else
    let p := b.parent.toNat
    if i ≤ p then some ⟨"block-tree", s!"block {i} parent {p}"⟩
    else
      let ps := (blocks.getD p default).start
      let pe := (blocks.getD p default).stop
      if s < ps ∨ pe < e then
        some ⟨"block-tree", s!"block {i} {s}..{e} outside its parent {p} {ps}..{pe}"⟩
      else if s < w.previousStart then
        some ⟨"block-tree", s!"block {i} starts before the block before it"⟩
      else
        let (qs, qe) := w.sibling.getD p (0, 0)
        if s < qe ∧ qs < e then
          some ⟨"block-tree", s!"block {i} {s}..{e} overlaps its previous sibling {qs}..{qe}"⟩
        else none

/-- What the pass remembers after a block. -/
def TreeWalk.after (w : TreeWalk) (i : Nat) (b : BlockRec) : TreeWalk :=
  if i = 0 then w else ⟨w.sibling.set b.parent.toNat (b.start, b.stop), b.start⟩

/-- The pass over the blocks, from the block at `i` on. -/
def treeProblemFrom (blocks : List BlockRec) (srcLen : Nat) :
    (i : Nat) → (rest : List BlockRec) → TreeWalk → Option Problem
  | _, [], _ => none
  | i, b :: rest, w =>
    (blockProblem blocks srcLen w i b).or
      (treeProblemFrom blocks srcLen (i + 1) rest (w.after i b))

/-- The pass over the content records of the block at `i`, given the line of the record
    before. -/
def contentProblemFrom (li : LineIndex) (srcLen i : Nat) (b : BlockRec) :
    (lastLine : Option Nat) → List ContentRec → Option Problem
  | _, [] => none
  | lastLine, c :: rest =>
    let cs := c.startByte.toNat
    let ce := c.endByte.toNat
    let line := c.line.toNat
    let ps := c.prefixStartByte.toNat
    let ls := li.lineStart line
    let le := li.lineEndWithBreak line srcLen
    if ce < cs ∨ cs < b.start ∨ b.stop + 1 < ce ∨ cs < ls ∨ le < ce ∨ ps < ls ∨ cs < ps ∨
        (lastLine.any fun l => decide (line ≤ l)) then
      some ⟨"content-structure", s!"block {i} content {cs}..{ce} on line {line}"⟩
    else contentProblemFrom li srcLen i b (some line) rest

namespace Extractor

variable (ex : Extractor)

/-- The content records of a block: none where they would run past the list. -/
def contentOf (b : BlockRec) : List ContentRec :=
  let co := b.contentOffset.toNat
  let cn := b.contentCount.toNat
  if co + cn ≤ ex.content.length then (ex.content.drop co).take cn else []

/-- The pass over the content of the blocks, from the block at `i` on. -/
def contentProblem : (i : Nat) → (rest : List BlockRec) → Option Problem
  | _, [] => none
  | i, b :: rest =>
    (contentProblemFrom ex.li ex.src.length i b none (ex.contentOf b)).or
      (contentProblem (i + 1) rest)

end Extractor

/-- The pass over the runs, from the run at `i` on, given the block of the run before. -/
def runsProblemFrom (blocks : List BlockRec) :
    (i previousBlock : Nat) → (rest : List RunRec) → Option Problem
  | _, _, [] => none
  | i, previousBlock, r :: rest =>
    let b := r.block.toNat
    if b < previousBlock ∨ blocks.length ≤ b then some ⟨"run-block", s!"run {i} block {b}"⟩
    else
      let s := r.startByte.toNat
      let e := r.endByte.toNat
      let bs := (blocks.getD b default).start
      let be := (blocks.getD b default).stop
      if s < bs ∨ be + 1 < e then
        some ⟨"run-block", s!"run {i} {s}..{e} outside block {b} {bs}..{be}"⟩
      else runsProblemFrom blocks (i + 1) b rest

namespace Extractor

variable (ex : Extractor)

/-- The first problem of the records: a pass runs if the passes before it found none. -/
def structureProblem : Option Problem :=
  (treeProblemFrom ex.blocks ex.src.length 0 ex.blocks
    ⟨List.replicate (ex.blocks.length + 1) (0, 0), 0⟩).or
  ((ex.contentProblem 0 ex.blocks).or (runsProblemFrom ex.blocks 0 0 ex.runs))

/-- `Extractor::check_structure`. -/
def checkStructure : Extractor :=
  match ex.structureProblem with
  | none => ex
  | some problem => ex.dev problem.rule problem.detail

/-- An extractor that collects deviations reports the problem that the check finds. -/
theorem checkStructure_deviations (hcollect : ex.collect = true) :
    ex.checkStructure.deviations = ex.deviations ↔ ex.structureProblem = none := by
  rw [checkStructure]
  cases ex.structureProblem with
  | none => simp
  | some problem => simp [Extractor.dev, hcollect]

end Extractor

/-! ## The law -/

/-- Two blocks share source. -/
def Overlap (b c : BlockRec) : Prop := b.start < c.stop ∧ c.start < b.stop

instance (b c : BlockRec) : Decidable (Overlap b c) := inferInstanceAs (Decidable (_ ∧ _))

/-- A content record of a block: a range on its line, its prefix before it, and inside the
    block but for its last byte. -/
structure ContentInside (li : LineIndex) (srcLen : Nat) (b : BlockRec) (c : ContentRec) :
    Prop where
  ordered : c.startByte.toNat ≤ c.endByte.toNat
  inBlock : b.start ≤ c.startByte.toNat ∧ c.endByte.toNat ≤ b.stop + 1
  onLine : li.lineStart c.line.toNat ≤ c.startByte.toNat ∧
    c.endByte.toNat ≤ li.lineEndWithBreak c.line.toNat srcLen
  linePrefix : li.lineStart c.line.toNat ≤ c.prefixStartByte.toNat ∧
    c.prefixStartByte.toNat ≤ c.startByte.toNat

/-- What the check is sure of for the blocks before `upto`. The first block is the document,
    which has no parent. -/
structure TreeUpTo (blocks : List BlockRec) (srcLen upto : Nat) : Prop where
  range : ∀ i (b : BlockRec), i < upto → blocks[i]? = some b → b.start ≤ b.stop ∧ b.stop ≤ srcLen
  parent : ∀ i (b : BlockRec), 0 < i → i < upto → blocks[i]? = some b → b.parent.toNat < i ∧
    ∃ p, blocks[b.parent.toNat]? = some p ∧ p.start ≤ b.start ∧ b.stop ≤ p.stop
  starts : ∀ i j (b c : BlockRec), i ≤ j → j < upto → blocks[i]? = some b → blocks[j]? = some c →
    b.start ≤ c.start
  /-- A block is apart from its previous sibling. -/
  neighbours : ∀ i j b c, 0 < i → i < j → j < upto → blocks[i]? = some b →
    blocks[j]? = some c → b.parent = c.parent →
    (∀ k d, i < k → k < j → blocks[k]? = some d → d.parent ≠ c.parent) → ¬Overlap b c

/-- What the check is sure of. -/
structure Structure (ex : Extractor) : Prop where
  tree : TreeUpTo ex.blocks ex.src.length ex.blocks.length
  content : ∀ b ∈ ex.blocks, (∀ c ∈ ex.contentOf b, ContentInside ex.li ex.src.length b c) ∧
    (ex.contentOf b).Pairwise fun c c' => c.line.toNat < c'.line.toNat
  runs : ∀ r ∈ ex.runs, ∃ b, ex.blocks[r.block.toNat]? = some b ∧
    b.start ≤ r.startByte.toNat ∧ r.endByte.toNat ≤ b.stop + 1
  runOrder : ex.runs.Pairwise fun r r' => r.block.toNat ≤ r'.block.toNat

/-- The records of a well-structured model: a tree of blocks whose siblings are all apart, content
    on lines of the source inside its block, and runs in block order inside their blocks. -/
structure WellStructured (ex : Extractor) : Prop where
  range : ∀ (i : Nat) (b : BlockRec), ex.blocks[i]? = some b → b.start ≤ b.stop ∧ b.stop ≤ ex.src.length
  parent : ∀ i (b : BlockRec), 0 < i → ex.blocks[i]? = some b → b.parent.toNat < i ∧
    ∃ p, ex.blocks[b.parent.toNat]? = some p ∧ p.start ≤ b.start ∧ b.stop ≤ p.stop
  starts : ∀ (i j : Nat) (b c : BlockRec), i ≤ j → ex.blocks[i]? = some b → ex.blocks[j]? = some c →
    b.start ≤ c.start
  siblings : ∀ i j b c, 0 < i → i < j → ex.blocks[i]? = some b → ex.blocks[j]? = some c →
    b.parent = c.parent → ¬Overlap b c
  content : ∀ b ∈ ex.blocks, (∀ c ∈ ex.contentOf b, c.line.toNat < ex.li.lineCount ∧
      ContentInside ex.li ex.src.length b c) ∧
    (ex.contentOf b).Pairwise fun c c' => c.line.toNat < c'.line.toNat
  runs : ∀ r ∈ ex.runs, r.startByte.toNat ≤ r.endByte.toNat ∧
    ∃ b, ex.blocks[r.block.toNat]? = some b ∧
      b.start ≤ r.startByte.toNat ∧ r.endByte.toNat ≤ b.stop + 1
  runOrder : ex.runs.Pairwise fun r r' => r.block.toNat ≤ r'.block.toNat

/-! ## The passes -/

theorem blockProblem_eq_none {blocks : List BlockRec} {srcLen : Nat} {w : TreeWalk} {i : Nat}
    {b : BlockRec} (hi : i < blocks.length) (h : blockProblem blocks srcLen w i b = none) :
    (b.start ≤ b.stop ∧ b.stop ≤ srcLen) ∧ (0 < i → (b.parent.toNat < i ∧
      ∃ p, blocks[b.parent.toNat]? = some p ∧ p.start ≤ b.start ∧ b.stop ≤ p.stop) ∧
        w.previousStart ≤ b.start ∧
        ¬(b.start < (w.sibling.getD b.parent.toNat (0, 0)).2 ∧
          (w.sibling.getD b.parent.toNat (0, 0)).1 < b.stop)) := by
  simp only [blockProblem] at h
  split at h
  · cases h
  next hrange =>
  refine ⟨by omega, fun hpos => ?_⟩
  rw [if_neg (by omega)] at h
  split at h
  · cases h
  next hparent =>
  split at h
  · cases h
  next hinside =>
  split at h
  · cases h
  next hstart =>
  split at h
  · cases h
  next hsibling =>
  have hlt : b.parent.toNat < blocks.length := by omega
  rw [List.getD_eq_getElem _ _ hlt] at hinside
  exact ⟨⟨by omega, blocks[b.parent.toNat], List.getElem?_eq_getElem hlt, by omega⟩, by omega,
    hsibling⟩

/-- What the pass remembers after the blocks before `upto`. -/
structure Remembers (blocks : List BlockRec) (upto : Nat) (w : TreeWalk) : Prop where
  length : w.sibling.length = blocks.length + 1
  started : ∀ i (b : BlockRec), 0 < i → i < upto → blocks[i]? = some b → b.start ≤ w.previousStart
  last : ∀ i (b : BlockRec), 0 < i → i < upto → blocks[i]? = some b →
    (∀ k d, i < k → k < upto → blocks[k]? = some d → d.parent ≠ b.parent) →
    w.sibling.getD b.parent.toNat (0, 0) = (b.start, b.stop)

theorem Remembers.step {blocks : List BlockRec} {srcLen n : Nat} {w : TreeWalk} {b : BlockRec}
    (hr : Remembers blocks n w) (hb : blocks[n]? = some b)
    (hproblem : blockProblem blocks srcLen w n b = none) :
    Remembers blocks (n + 1) (w.after n b) := by
  obtain ⟨hlt, -⟩ := List.getElem?_eq_some_iff.1 hb
  obtain ⟨-, hchild⟩ := blockProblem_eq_none hlt hproblem
  rcases Nat.eq_zero_or_pos n with rfl | hpos
  · rw [TreeWalk.after, if_pos rfl]
    exact ⟨hr.length, fun i _ h₀ h₁ => by omega, fun i _ h₀ h₁ => by omega⟩
  obtain ⟨⟨hparent, -⟩, hstart, -⟩ := hchild hpos
  rw [TreeWalk.after, if_neg (by omega)]
  refine ⟨by rw [List.length_set, hr.length], fun i c hi hin hc => ?_, fun i c hi hin hc hlast => ?_⟩
  · rcases Nat.lt_succ_iff_lt_or_eq.1 hin with hin | rfl
    · exact (hr.started i c hi hin hc).trans hstart
    · rw [Option.some.inj (hb.symm.trans hc)]
  · have hslot : b.parent.toNat < w.sibling.length := by
      rw [hr.length]
      omega
    rcases Nat.lt_succ_iff_lt_or_eq.1 hin with hin | rfl
    · -- The new block is under another parent, so that the slot is as it was.
      have hne : b.parent ≠ c.parent := hlast n b hin (Nat.lt_succ_self n) hb
      have hne' : b.parent.toNat ≠ c.parent.toNat := fun h => hne (UInt32.toNat_inj.1 h)
      rw [List.getD_eq_getElem?_getD, List.getElem?_set_ne hne', ← List.getD_eq_getElem?_getD]
      exact hr.last i c hi hin hc fun k d hik hk => hlast k d hik (hk.trans (Nat.lt_succ_self n))
    · obtain rfl := Option.some.inj (hb.symm.trans hc)
      rw [List.getD_eq_getElem?_getD, List.getElem?_set_self hslot]
      rfl

theorem TreeUpTo.step {blocks : List BlockRec} {srcLen n : Nat} {w : TreeWalk} {b : BlockRec}
    (ht : TreeUpTo blocks srcLen n) (hr : Remembers blocks n w) (hb : blocks[n]? = some b)
    (hproblem : blockProblem blocks srcLen w n b = none) : TreeUpTo blocks srcLen (n + 1) := by
  obtain ⟨hlt, -⟩ := List.getElem?_eq_some_iff.1 hb
  obtain ⟨hrange, hchild⟩ := blockProblem_eq_none hlt hproblem
  refine ⟨fun i c hi hc => ?_, fun i c hpos hi hc => ?_, fun i j c d hij hj hc hd => ?_,
    fun i j c d hpos hij hj hc hd hp hbetween => ?_⟩
  · rcases Nat.lt_succ_iff_lt_or_eq.1 hi with hi | rfl
    · exact ht.range i c hi hc
    · rwa [← Option.some.inj (hb.symm.trans hc)]
  · rcases Nat.lt_succ_iff_lt_or_eq.1 hi with hi | rfl
    · exact ht.parent i c hpos hi hc
    · rw [← Option.some.inj (hb.symm.trans hc)]
      exact (hchild hpos).1
  · rcases Nat.lt_succ_iff_lt_or_eq.1 hj with hj | rfl
    · exact ht.starts i j c d hij hj hc hd
    obtain rfl := Option.some.inj (hb.symm.trans hd)
    rcases Nat.eq_or_lt_of_le hij with rfl | hij
    · rw [Option.some.inj (hc.symm.trans hb)]
    obtain ⟨⟨hparent, p, hp, hstart, -⟩, hprevious, -⟩ := hchild (by omega)
    rcases Nat.eq_zero_or_pos i with rfl | hpos
    · -- The document starts no later than the parent of the new block.
      exact (ht.starts 0 _ c p (Nat.zero_le _) hparent hc hp).trans hstart
    · exact (hr.started i c hpos hij hc).trans hprevious
  · rcases Nat.lt_succ_iff_lt_or_eq.1 hj with hj | rfl
    · exact ht.neighbours i j c d hpos hij hj hc hd hp hbetween
    obtain rfl := Option.some.inj (hb.symm.trans hd)
    obtain ⟨-, -, hclear⟩ := hchild (by omega)
    have hlast := hr.last i c hpos hij hc fun k d hik hk hd => hp ▸ hbetween k d hik hk hd
    rw [← hp, hlast] at hclear
    exact fun h => hclear ⟨h.2, h.1⟩

theorem TreeUpTo.run {blocks : List BlockRec} {srcLen : Nat} :
    ∀ {rest : List BlockRec} {n : Nat} {w : TreeWalk}, TreeUpTo blocks srcLen n →
      Remembers blocks n w → blocks.drop n = rest →
      treeProblemFrom blocks srcLen n rest w = none → TreeUpTo blocks srcLen blocks.length
  | [], n, _, ht, _, hrest, _ => by
    have hle : blocks.length ≤ n := List.drop_eq_nil_iff.1 hrest
    exact {
      range := fun i b hi => ht.range i b (hi.trans_le hle)
      parent := fun i b hpos hi => ht.parent i b hpos (hi.trans_le hle)
      starts := fun i j b c hij hj => ht.starts i j b c hij (hj.trans_le hle)
      neighbours := fun i j b c hpos hij hj => ht.neighbours i j b c hpos hij (hj.trans_le hle) }
  | b :: rest, n, w, ht, hr, hrest, h => by
    have hb : blocks[n]? = some b := by
      rw [← List.head?_drop, hrest]
      rfl
    rw [treeProblemFrom, Option.or_eq_none_iff] at h
    refine TreeUpTo.run (ht.step hr hb h.1) (hr.step hb h.1) ?_ h.2
    rw [← List.tail_drop, hrest]
    rfl

theorem contentProblemFrom_eq_none {li : LineIndex} {srcLen i : Nat} {b : BlockRec} :
    ∀ {l : List ContentRec} {lastLine : Option Nat},
      contentProblemFrom li srcLen i b lastLine l = none →
      (∀ c ∈ l, ContentInside li srcLen b c ∧ ∀ line ∈ lastLine, line < c.line.toNat) ∧
        l.Pairwise fun c c' => c.line.toNat < c'.line.toNat
  | [], _, _ => ⟨fun _ hc => absurd hc List.not_mem_nil, List.Pairwise.nil⟩
  | c :: l, lastLine, h => by
    simp only [contentProblemFrom] at h
    split at h
    · cases h
    next hc =>
    simp only [not_or, not_lt] at hc
    obtain ⟨hord, hs, he, hls, hle, hps, hps', hlast⟩ := hc
    obtain ⟨hall, hpair⟩ := contentProblemFrom_eq_none h
    have hline : ∀ line ∈ lastLine, line < c.line.toNat := by
      intro line hline
      rw [Option.mem_def.1 hline] at hlast
      simpa using hlast
    refine ⟨fun c' hc' => ?_, List.pairwise_cons.2 ⟨fun c' hc' => (hall c' hc').2 _ rfl, hpair⟩⟩
    rcases List.mem_cons.1 hc' with rfl | hc'
    · exact ⟨⟨hord, ⟨hs, he⟩, ⟨hls, hle⟩, hps, hps'⟩, hline⟩
    · exact ⟨(hall c' hc').1, fun line hl => (hline line hl).trans ((hall c' hc').2 _ rfl)⟩

theorem contentProblem_eq_none {ex : Extractor} :
    ∀ {rest : List BlockRec} {i : Nat}, ex.contentProblem i rest = none → ∀ b ∈ rest,
      (∀ c ∈ ex.contentOf b, ContentInside ex.li ex.src.length b c) ∧
        (ex.contentOf b).Pairwise fun c c' => c.line.toNat < c'.line.toNat
  | [], _, _ => fun _ hb => absurd hb List.not_mem_nil
  | b :: rest, i, h => by
    rw [Extractor.contentProblem, Option.or_eq_none_iff] at h
    intro b' hb'
    rcases List.mem_cons.1 hb' with rfl | hb'
    · obtain ⟨hall, hpair⟩ := contentProblemFrom_eq_none h.1
      exact ⟨fun c hc => (hall c hc).1, hpair⟩
    · exact contentProblem_eq_none h.2 b' hb'

theorem runsProblemFrom_eq_none {blocks : List BlockRec} :
    ∀ {rest : List RunRec} {i previousBlock : Nat},
      runsProblemFrom blocks i previousBlock rest = none →
      (∀ r ∈ rest, previousBlock ≤ r.block.toNat ∧ ∃ b, blocks[r.block.toNat]? = some b ∧
        b.start ≤ r.startByte.toNat ∧ r.endByte.toNat ≤ b.stop + 1) ∧
      rest.Pairwise fun r r' => r.block.toNat ≤ r'.block.toNat
  | [], _, _, _ => ⟨fun _ hr => absurd hr List.not_mem_nil, List.Pairwise.nil⟩
  | r :: rest, i, previousBlock, h => by
    simp only [runsProblemFrom] at h
    split at h
    · cases h
    next hblock =>
    split at h
    · cases h
    next hinside =>
    obtain ⟨hall, hpair⟩ := runsProblemFrom_eq_none h
    have hlt : r.block.toNat < blocks.length := by omega
    rw [List.getD_eq_getElem _ _ hlt] at hinside
    refine ⟨fun r' hr' => ?_, List.pairwise_cons.2 ⟨fun r' hr' => (hall r' hr').1, hpair⟩⟩
    rcases List.mem_cons.1 hr' with rfl | hr'
    · exact ⟨by omega, blocks[r'.block.toNat], List.getElem?_eq_getElem hlt, by omega, by omega⟩
    · exact ⟨by have := (hall r' hr').1; omega, (hall r' hr').2⟩

/-- Records without a problem have the structure that the check is sure of. -/
theorem structureProblem_eq_none {ex : Extractor} (h : ex.structureProblem = none) :
    Structure ex := by
  rw [Extractor.structureProblem, Option.or_eq_none_iff, Option.or_eq_none_iff] at h
  obtain ⟨htree, hcontent, hruns⟩ := h
  have hempty : TreeUpTo ex.blocks ex.src.length 0 :=
    ⟨fun _ _ h => by omega, fun _ _ _ h => by omega, fun _ _ _ _ _ h => by omega,
      fun _ _ _ _ _ _ h => by omega⟩
  have hnothing : Remembers ex.blocks 0 ⟨List.replicate (ex.blocks.length + 1) (0, 0), 0⟩ :=
    ⟨by simp, fun _ _ _ h => by omega, fun _ _ _ h => by omega⟩
  obtain ⟨hinside, horder⟩ := runsProblemFrom_eq_none hruns
  exact {
    tree := hempty.run hnothing rfl htree
    content := contentProblem_eq_none hcontent
    runs := fun r hr => (hinside r hr).2
    runOrder := horder }

/-! ## What the check leaves -/

/-- What is left for records without a problem to be well structured: content on lines of the
    source, runs that end no earlier than they start, and a block apart from a sibling when
    all the siblings between the two are empty and start where that one does. -/
structure CheckSuffices (ex : Extractor) : Prop where
  lines : ∀ b ∈ ex.blocks, ∀ c ∈ ex.contentOf b, c.line.toNat < ex.li.lineCount
  runs : ∀ r ∈ ex.runs, r.startByte.toNat ≤ r.endByte.toNat
  siblings : ∀ i j b c, 0 < i → i < j → ex.blocks[i]? = some b → ex.blocks[j]? = some c →
    b.parent = c.parent → (∃ k d, i < k ∧ k < j ∧ ex.blocks[k]? = some d ∧ d.parent = c.parent) →
    (∀ k d, i < k → k < j → ex.blocks[k]? = some d → d.parent = c.parent →
      d.start = b.start ∧ d.stop = b.start) → ¬Overlap b c

/-- The first sibling to overlap a block follows empty ones that start where the block does:
    one of them hid the block from the check. -/
theorem Structure.overlap {ex : Extractor} (h : Structure ex) {i j : Nat} {b c : BlockRec}
    (hi : 0 < i) (hij : i < j) (hb : ex.blocks[i]? = some b) (hc : ex.blocks[j]? = some c)
    (hp : b.parent = c.parent) (ho : Overlap b c) :
    ∃ j c, i < j ∧ ex.blocks[j]? = some c ∧ b.parent = c.parent ∧ Overlap b c ∧
      (∃ k d, i < k ∧ k < j ∧ ex.blocks[k]? = some d ∧ d.parent = c.parent) ∧
      ∀ k d, i < k → k < j → ex.blocks[k]? = some d → d.parent = c.parent →
        d.start = b.start ∧ d.stop = b.start := by
  have hsome : ∃ j c, i < j ∧ ex.blocks[j]? = some c ∧ b.parent = c.parent ∧ Overlap b c :=
    ⟨j, c, hij, hc, hp, ho⟩
  classical
  obtain ⟨c, hij, hc, hp, ho⟩ := Nat.find_spec hsome
  have hfirst : ∀ k d, i < k → k < Nat.find hsome → ex.blocks[k]? = some d →
      d.parent = c.parent → ¬Overlap b d :=
    fun k d hik hk hd hdc ho => Nat.find_min hsome hk ⟨d, hik, hd, hp.trans hdc.symm, ho⟩
  generalize Nat.find hsome = j at *
  obtain ⟨hlt, -⟩ := List.getElem?_eq_some_iff.1 hc
  have hbetween : ∀ k d, i < k → k < j → ex.blocks[k]? = some d → d.parent = c.parent →
      d.start = b.start ∧ d.stop = b.start := by
    intro k d hik hk hd hdc
    have hklt : k < ex.blocks.length := hk.trans hlt
    have hafter := h.tree.starts i k b d hik.le hklt hb hd
    have hbefore := h.tree.starts k j d c hk.le hlt hd hc
    have hrange := h.tree.range k d hklt hd
    have hapart := hfirst k d hik hk hd hdc
    rw [Overlap] at hapart ho
    omega
  refine ⟨j, c, hij, hc, hp, ho, ?_, hbetween⟩
  by_contra hnone
  refine h.tree.neighbours i j b c hi hij hlt hb hc hp (fun k d hik hk hd hdc => ?_) ho
  exact hnone ⟨k, d, hik, hk, hd, hdc⟩

/-- When the check reports nothing, the records are well structured exactly if content is on lines
    of the source, runs are ordered and no block overlaps a sibling that empty siblings at its
    start hid from the check. -/
theorem wellStructured_iff {ex : Extractor} (hcollect : ex.collect = true)
    (h : ex.checkStructure.deviations = ex.deviations) : WellStructured ex ↔ CheckSuffices ex := by
  have hs := structureProblem_eq_none ((ex.checkStructure_deviations hcollect).1 h)
  have hlt : ∀ {i b}, ex.blocks[i]? = some b → i < ex.blocks.length :=
    fun hb => (List.getElem?_eq_some_iff.1 hb).1
  constructor
  · intro hw
    exact {
      lines := fun b hb c hc => ((hw.content b hb).1 c hc).1
      runs := fun r hr => (hw.runs r hr).1
      siblings := fun i j b c hi hij hb hc hp _ _ => hw.siblings i j b c hi hij hb hc hp }
  · intro hw
    exact {
      range := fun i b hb => hs.tree.range i b (hlt hb) hb
      parent := fun i b hi hb => hs.tree.parent i b hi (hlt hb) hb
      starts := fun i j b c hij hb hc => hs.tree.starts i j b c hij (hlt hc) hb hc
      siblings := fun i j b c hi hij hb hc hp ho => by
        obtain ⟨j, c, hij, hc, hp, ho, hsome, hall⟩ := hs.overlap hi hij hb hc hp ho
        exact hw.siblings i j b c hi hij hb hc hp hsome hall ho
      content := fun b hb => ⟨fun c hc => ⟨hw.lines b hb c hc, (hs.content b hb).1 c hc⟩,
        (hs.content b hb).2⟩
      runs := fun r hr => ⟨hw.runs r hr, hs.runs r hr⟩
      runOrder := hs.runOrder }

/-- A document of three blocks, from start to end, in a source of one line of eleven bytes. -/
def threeBlocks (first second third : UInt32 × UInt32) : Extractor :=
  let document : BlockRec := { (default : BlockRec) with parent := noParent, endByte := 11 }
  let child (range : UInt32 × UInt32) : BlockRec :=
    { (default : BlockRec) with kind := 1, startByte := range.1, endByte := range.2 }
  { src := List.replicate 11 0x61
    li := ⟨[0], [11], List.replicate 12 0⟩
    blocks := [document, child first, child second, child third]
    content := []
    runs := []
    definitions := []
    strings := []
    collect := true
    deviations := [] }

/-- A document whose blocks are apart. -/
theorem wellStructured_threeBlocks : WellStructured (threeBlocks (0, 3) (4, 7) (8, 11)) := by
  refine (wellStructured_iff (by rfl) (by decide)).2 ⟨?_, fun _ hr => absurd hr List.not_mem_nil,
    fun i j b c hi hij hb hc _ _ _ => ?_⟩
  · intro b hb c hc
    rw [Extractor.contentOf] at hc
    simp [threeBlocks] at hc
  · have hj : j < 4 := (List.getElem?_eq_some_iff.1 hc).1
    have hpairs : i = 1 ∧ j = 2 ∨ i = 1 ∧ j = 3 ∨ i = 2 ∧ j = 3 := by omega
    rcases hpairs with ⟨rfl, rfl⟩ | ⟨rfl, rfl⟩ | ⟨rfl, rfl⟩ <;>
    · obtain rfl := Option.some.inj hb
      obtain rfl := Option.some.inj hc
      decide

/-- An empty block at the start of the first block hides it from the check, so that the third
    block may overlap it. -/
theorem not_forall_wellStructured : ¬∀ ex : Extractor, ex.collect = true →
    ex.checkStructure.deviations = ex.deviations → WellStructured ex := by
  intro h
  have hw := h (threeBlocks (0, 10) (0, 0) (5, 8)) rfl (by decide)
  exact hw.siblings 1 3 _ _ (by decide) (by decide) rfl rfl rfl (by decide)

end Flark.Native
