import Flark.Native.Expand
import Flark.Parse.RoundTrip
import Mathlib.Data.List.Induction

/-!
# Expanding what was encoded

The words that the extractor encodes expand to the extractor's own records
(`Flark.Parse.ExpandedRuns`): the content records come back in block order (`Extractor.rebased`),
and a code run without the number of its backticks, which is not published (`RunRec.published`).

* `byte_eq`: the byte offset of a scalar boundary is found by its UTF-16 offset;
* `encode_rebased`: an extractor encodes as it does with its content records in block order, and
  then `Flark.Parse.RoundTrip` says what the words of each record are;
* `line_eq`, `block_eq`, `content_eq`, `definition_eq`: the words of a line, a block, a content
  record and a definition expand to their record.
-/

namespace Flark.Native

open Packing

/-! ## The layout -/

/-- The words of a block record. -/
def BlockRec.words (b : BlockRec) : List UInt32 :=
  [b.kind, b.parent, b.startByte, b.endByte, b.startUtf16, b.endUtf16, b.firstLine, b.lineCount,
    b.contentOffset, b.contentCount, b.attr0, b.attr1, b.attr2, b.flags, b.markerEndByte,
    b.markerEndUtf16]

/-- The words of a content record. -/
def ContentRec.words (c : ContentRec) : List UInt32 :=
  [c.line, c.startByte, c.startUtf16, c.endByte, c.endUtf16, c.virtualLeadingSpaces,
    c.prefixStartByte, c.prefixStartUtf16]

/-- The words of a run record. -/
def RunRec.words (r : RunRec) : List UInt32 :=
  [r.kind, r.block, r.parent, r.startByte, r.endByte, r.contentStartByte, r.contentEndByte,
    r.startUtf16, r.endUtf16, r.contentStartUtf16, r.contentEndUtf16, r.aux0, r.aux1, r.aux2,
    r.aux3, r.flags, r.destinationOffset, r.destinationLength, r.titleOffset, r.titleLength]

/-- The words of a definition. -/
def Definition.words (li : LineIndex) (d : Definition) : List UInt32 :=
  [u32 d.start, u32 d.stop, li.u16 d.start, li.u16 d.stop, u32 d.label.1, u32 d.label.2,
    u32 d.dest.1, u32 d.dest.2]

/-- A run as it is published: without the number of backticks of a code run. -/
def RunRec.published (r : RunRec) : RunRec :=
  if r.kind.toNat = RunKind.code then { r with aux0 := 0 } else r

namespace Extractor

variable (ex : Extractor)

/-- The records with the content records in block order. -/
def rebased : Extractor :=
  { ex with
    content := ex.ownedContent
    blocks := ex.blocks.mapIdx fun i b =>
      { b with contentOffset := u32 (contentBefore ex.blocks i) } }

/-- The records in the extractor's layout. -/
def internalWords : List UInt32 :=
  [u32 RenderModelSchema.magic, u32 RenderModelSchema.version, u32 ex.src.length,
    ex.li.u16 ex.src.length, u32 ex.li.lineCount, u32 ex.blocks.length, u32 ex.content.length,
    u32 ex.runs.length, u32 ex.definitions.length, u32 ex.strings.length, 0] ++
  (List.range ex.li.lineCount).flatMap (fun l =>
    [u32 (ex.li.lineStart l), ex.li.u16 (ex.li.lineStart l)]) ++
  ex.blocks.flatMap BlockRec.words ++ ex.content.flatMap ContentRec.words ++
  ex.runs.flatMap (fun r => r.published.words) ++
  ex.definitions.flatMap (Definition.words ex.li) ++ stringWords ex.strings

end Extractor

/-! ## The invariants -/

/-- A byte offset on a scalar boundary, and its UTF-16 offset. -/
def OnScalar (src : Str) (li : LineIndex) (byte utf16 : UInt32) : Prop :=
  Str.isCharBoundary src byte.toNat = true ∧ utf16 = li.u16 byte.toNat

/-- A fenced code block. -/
def BlockRec.IsFenced (b : BlockRec) : Prop :=
  b.kind.toNat = BlockKind.codeBlock ∧ b.flags &&& 1 ≠ 0

instance (src : Str) (li : LineIndex) (byte utf16 : UInt32) :
    Decidable (OnScalar src li byte utf16) := inferInstanceAs (Decidable (_ ∧ _))

instance (b : BlockRec) : Decidable b.IsFenced := inferInstanceAs (Decidable (_ ∧ _))

/-- The offsets of a block are on scalar boundaries, a list has the flags of lists, and what the
    kind of a block has no use for is zero. -/
structure BlockRec.Sound (src : Str) (li : LineIndex) (b : BlockRec) : Prop where
  start : OnScalar src li b.startByte b.startUtf16
  stop : OnScalar src li b.endByte b.endUtf16
  attrs : b.IsFenced ∨ b.kind.toNat = BlockKind.item ∨
    b.kind.toNat = BlockKind.footnoteDefinition →
      Str.isCharBoundary src b.attr1.toNat = true ∧ Str.isCharBoundary src b.attr2.toNat = true
  marker : b.kind.toNat = BlockKind.item → OnScalar src li b.markerEndByte b.markerEndUtf16
  list : b.kind.toNat = BlockKind.list → b.attr0.toNat ≤ 1 ∧ b.flags.toNat ≤ 1
  noMarker : b.kind.toNat ≠ BlockKind.item → b.markerEndByte = 0 ∧ b.markerEndUtf16 = 0
  noAttr2 : ¬(b.IsFenced ∨ b.kind.toNat = BlockKind.item ∨
    b.kind.toNat = BlockKind.footnoteDefinition) → b.attr2 = 0
  noAttr1 : ¬(b.IsFenced ∨ b.kind.toNat = BlockKind.item ∨
    b.kind.toNat = BlockKind.footnoteDefinition ∨ b.kind.toNat = BlockKind.list ∨
      b.kind.toNat = BlockKind.table) → b.attr1 = 0

/-- The offsets of a content record are on scalar boundaries, and its line and its virtual spaces
    fit their fields. -/
structure ContentRec.Sound (src : Str) (li : LineIndex) (c : ContentRec) : Prop where
  start : OnScalar src li c.startByte c.startUtf16
  stop : OnScalar src li c.endByte c.endUtf16
  prefixStart : OnScalar src li c.prefixStartByte c.prefixStartUtf16
  fields : c.line.toNat < 2 ^ 30 ∧ c.virtualLeadingSpaces.toNat ≤ 3

/-- The offsets of a run are on scalar boundaries, it has the flags of runs, and what its kind has
    no use for is zero. -/
structure RunRec.Sound (src : Str) (li : LineIndex) (r : RunRec) : Prop where
  start : OnScalar src li r.startByte r.startUtf16
  stop : OnScalar src li r.endByte r.endUtf16
  contentStart : OnScalar src li r.contentStartByte r.contentStartUtf16
  contentStop : OnScalar src li r.contentEndByte r.contentEndUtf16
  flags : r.flags.toNat = r.flags.toNat % 4 + r.flags.toNat / 256 % 2 * 256
  link : r.isLink → ∀ aux ∈ [r.aux0, r.aux1, r.aux2, r.aux3],
    Str.isCharBoundary src aux.toNat = true
  label : r.kind.toNat = RunKind.footnoteRef → ∀ aux ∈ [r.aux0, r.aux1],
    Str.isCharBoundary src aux.toNat = true
  noResource : ¬r.isLink → r.destinationOffset = 0 ∧ r.destinationLength = 0 ∧
    r.titleOffset = 0 ∧ r.titleLength = 0
  noAux23 : ¬(r.isLink ∨ r.kind.toNat = RunKind.code ∧ r.flags &&& 2 ≠ 0) →
    r.aux2 = 0 ∧ r.aux3 = 0
  noAux01 : ¬(r.isLink ∨ r.kind.toNat = RunKind.replacement ∨
    r.kind.toNat = RunKind.footnoteRef) → (r.kind.toNat ≠ RunKind.code → r.aux0 = 0) ∧ r.aux1 = 0

/-- The offsets of a definition are on scalar boundaries. -/
def Definition.Sound (src : Str) (d : Definition) : Prop :=
  ∀ offset ∈ [d.start, d.stop, d.label.1, d.label.2, d.dest.1, d.dest.2],
    Str.isCharBoundary src offset = true

/-- The invariants of the records of a source. -/
structure Expandable (src : Str) (ex : Extractor) : Prop where
  source : ex.src = utf8 src
  lineIndex : ex.li = LineIndex.new ex.src
  srcLength : ex.src.length < 2 ^ 32
  lineCount : ex.li.lineCount < 2 ^ 32
  blockCount : ex.blocks.length < 2 ^ 32
  contentCount : ex.content.length < 2 ^ 32
  runCount : ex.runs.length < 2 ^ 32
  definitionCount : ex.definitions.length < 2 ^ 32
  stringBytes : ex.strings.length < 2 ^ 32
  extraWords :
    (blockExtras ex.li ex.blocks).length + (runExtras ex.li 0 ex.runs).length < 2 ^ 32 - 1
  blockFields : ∀ b ∈ ex.blocks, b.kind.toNat < 2 ^ 8 ∧ b.flags.toNat < 2 ^ 24
  runKind : ∀ r ∈ ex.runs, r.kind.toNat < 2 ^ 8
  /-- The content slices of the blocks hold each content record once. -/
  contentSlice : ∀ b ∈ ex.blocks,
    b.contentOffset.toNat + b.contentCount.toNat ≤ ex.content.length
  contentOwned : ex.ownedContent.Perm ex.content
  runOrder : ex.runs.Pairwise fun r r' => r.block ≤ r'.block
  runBlock : ∀ r ∈ ex.runs, r.block.toNat < ex.blocks.length
  runRange : ∀ r ∈ ex.runs, r.startUtf16 ≤ r.contentStartUtf16 ∧
    r.contentStartUtf16 ≤ r.contentEndUtf16 ∧ r.contentEndUtf16 ≤ r.endUtf16
  runParent : ∀ (i : Nat) r, ex.runs[i]? = some r → r.parent = Native.noParent ∨
    r.parent.toNat < i ∧ ∃ q, ex.runs[r.parent.toNat]? = some q ∧ q.block = r.block
  strings : ∀ r ∈ ex.runs, ∀ ref ∈ r.stringRefs,
    ref.1.toNat + ref.2.toNat ≤ ex.strings.length ∧ (utf16OfUtf8 (ex.stringBytes ref)).isSome
  blocks : ∀ b ∈ ex.blocks, b.Sound src ex.li
  content : ∀ c ∈ ex.content, c.Sound src ex.li
  runs : ∀ r ∈ ex.runs, r.Sound src ex.li
  definitions : ∀ d ∈ ex.definitions, d.Sound src

/-! ## Byte offsets -/

variable {src : Str}

/-- The byte of a code unit is found behind the characters before it. -/
theorem getD_byteOfFrom (p t : Str) (i : Nat) :
    (byteOfFrom i (p ++ t)).getD (units p).length none = some (u32 (i + Str.len p)) := by
  induction p generalizing i with
  | nil =>
    cases t with
    | nil => rfl
    | cons c t => rfl
  | cons c p ih =>
    have hpos : 0 < (unitsOf c).length := by
      rw [length_unitsOf]
      split <;> decide
    rw [List.cons_append, byteOfFrom, units_cons, List.length_append]
    obtain ⟨n, hn⟩ := Nat.exists_eq_add_of_lt hpos
    rw [Nat.zero_add] at hn
    rw [hn, Nat.add_sub_cancel, Nat.add_right_comm, List.getD_cons_succ, List.getD_eq_getElem?_getD,
      List.getElem?_append_right (by rw [List.length_replicate]; exact Nat.le_add_right _ _),
      List.length_replicate, Nat.add_sub_cancel_left, ← List.getD_eq_getElem?_getD, ih,
      Str.len_cons, Nat.add_assoc]

/-- The code units before a character are counted. -/
theorem u16_eq (h : Str.len src < 2 ^ 32) {p t : Str} (hsrc : src = p ++ t) :
    ((LineIndex.new (utf8 src)).u16 (Str.len p)).toNat = (units p).length := by
  have hlen : (LineIndex.new (utf8 src)).utf16.length = Str.len src + 1 := by
    rw [LineIndex.new_utf8 h]
    exact LineIndex.length_utf16_ofChars 0 0 src
  have hle : Str.len p ≤ Str.len src := by
    rw [hsrc, Str.len_append]
    exact Nat.le_add_right _ _
  have hunits := length_units_le p
  rw [Str.length_utf8] at hunits
  have hentry := LineIndex.getElem?_utf16_ofChars 0 0 p t
  rw [← hsrc, Nat.zero_add, Str.length_utf8] at hentry
  rw [LineIndex.u16, hlen, Nat.add_sub_cancel, Nat.min_eq_left hle, LineIndex.new_utf8 h,
    List.getD_eq_getElem?_getD, hentry, Option.getD_some, UInt32.toNat_ofNat',
    Nat.mod_eq_of_lt (by omega)]

/-- The byte offset of a scalar boundary is found by its UTF-16 offset. -/
theorem byte_eq (h : Str.len src < 2 ^ 32) {x : Expander} (hx : x.byteOf = byteOfFrom 0 src)
    {b : Nat} (hb : Str.isCharBoundary src b = true) (what : String) :
    x.byte ((LineIndex.new (utf8 src)).u16 b) what = .ok (u32 b) := by
  obtain ⟨p, t, rfl, rfl⟩ := Str.isCharBoundary_iff.1 hb
  rw [Expander.byte, u16_eq h rfl, hx, getD_byteOfFrom, Nat.zero_add]

/-! ## Content records in block order -/

section

variable {ex : Extractor}

/-- What does not depend on content offsets is the same of the blocks. -/
theorem map_rebased {α : Type} (g : BlockRec → α)
    (hg : ∀ b offset, g { b with contentOffset := offset } = g b) :
    ex.rebased.blocks.map g = ex.blocks.map g := by
  refine List.ext_getElem? fun i => ?_
  rw [List.getElem?_map, List.getElem?_map, Extractor.rebased, List.getElem?_mapIdx, Option.map_map]
  congr 1
  funext b
  exact hg b _

/-- Rebasing leaves how much content is before a block. -/
theorem contentBefore_rebased (i : Nat) :
    contentBefore ex.rebased.blocks i = contentBefore ex.blocks i := by
  rw [contentBefore, contentBefore, List.map_take, List.map_take,
    map_rebased (fun b => b.contentCount.toNat) fun _ _ => rfl]

/-- Rebasing leaves the extras of blocks. -/
theorem blockExtras_rebased (li : LineIndex) (i : Nat) :
    blockExtras li (ex.rebased.blocks.take i) = blockExtras li (ex.blocks.take i) := by
  rw [blockExtras, blockExtras, List.flatMap_def, List.flatMap_def, List.map_take, List.map_take,
    map_rebased (fun b => (blockFields li b).extra) fun _ _ => rfl]

theorem length_rebased : ex.rebased.blocks.length = ex.blocks.length := List.length_mapIdx

theorem blockExtras_eq : blockExtras ex.li ex.rebased.blocks = blockExtras ex.li ex.blocks := by
  have hextras := @blockExtras_rebased ex ex.li ex.blocks.length
  rwa [← length_rebased, List.take_length, length_rebased, List.take_length] at hextras

/-- A rebased block has its content where the pieces before it end. -/
theorem getElem?_rebased {i : Nat} {b : BlockRec} (hb : ex.blocks[i]? = some b) :
    ex.rebased.blocks[i]? = some { b with contentOffset := u32 (contentBefore ex.blocks i) } := by
  rw [Extractor.rebased, List.getElem?_mapIdx, hb]
  rfl

/-- A block of the records in block order is one of theirs but for its content offset. -/
theorem exists_of_getElem?_rebased {i : Nat} {b : BlockRec} (hb : ex.rebased.blocks[i]? = some b) :
    ∃ b₀, ex.blocks[i]? = some b₀ ∧
      b = { b₀ with contentOffset := u32 (contentBefore ex.blocks i) } := by
  have hlt := (List.getElem?_eq_some_iff.1 hb).1
  rw [length_rebased] at hlt
  have h₀ := List.getElem?_eq_getElem hlt
  exact ⟨_, h₀, Option.some_inj.1 (hb.symm.trans (getElem?_rebased h₀))⟩

/-- The blocks before one hold as many content records as they count. -/
theorem length_flatMap_blockRecords
    (hslice : ∀ b ∈ ex.blocks, b.contentOffset.toNat + b.contentCount.toNat ≤ ex.content.length)
    (i : Nat) :
    ((ex.blocks.take i).flatMap ex.blockRecords).length = contentBefore ex.blocks i := by
  rw [List.length_flatMap, contentBefore]
  congr 1
  refine List.map_congr_left fun b hb => ?_
  have := hslice b (List.mem_of_mem_take hb)
  rw [Extractor.blockRecords, List.length_take, List.length_drop]
  omega

namespace Expandable

variable (h : Expandable src ex)
include h

theorem length_ownedContent :
    ex.ownedContent.length = contentBefore ex.blocks ex.blocks.length := by
  rw [← length_flatMap_blockRecords h.contentSlice, List.take_length, Extractor.ownedContent]

/-- The content before a block fits a word. -/
theorem contentBefore_lt {i : Nat} (hi : i ≤ ex.blocks.length) :
    contentBefore ex.blocks i ≤ ex.content.length := by
  rw [← h.contentOwned.length_eq, h.length_ownedContent]
  exact contentBefore_mono hi

/-- The records in block order meet the invariants of encoding. -/
theorem wellFormed : WellFormed ex.rebased where
  srcLength := h.srcLength
  lineCount := h.lineCount
  blockCount := by
    rw [length_rebased]
    exact h.blockCount
  contentCount := h.contentOwned.length_eq.trans_lt h.contentCount
  runCount := h.runCount
  definitionCount := h.definitionCount
  stringBytes := h.stringBytes
  extraWords := (congrArg (fun extras => extras.length + (runExtras ex.li 0 ex.runs).length)
    blockExtras_eq).trans_lt h.extraWords
  blockFields := by
    intro b hb
    obtain ⟨i, hi⟩ := List.mem_iff_getElem?.1 hb
    obtain ⟨b₀, hb₀, rfl⟩ := exists_of_getElem?_rebased hi
    exact h.blockFields b₀ (List.mem_of_getElem? hb₀)
  runKind := h.runKind
  -- Only where a block's content stands is new: behind that of the blocks before it.
  contentSlice := by
    intro b hb
    obtain ⟨i, hi⟩ := List.mem_iff_getElem?.1 hb
    obtain ⟨b₀, hb₀, rfl⟩ := exists_of_getElem?_rebased hi
    have hlt := (List.getElem?_eq_some_iff.1 hb₀).1
    have hle := h.contentBefore_lt (Nat.succ_le_of_lt hlt)
    have hcount := h.contentCount
    rw [Nat.succ_eq_add_one, contentBefore_succ hb₀] at hle
    change (u32 (contentBefore ex.blocks i)).toNat + b₀.contentCount.toNat ≤ ex.ownedContent.length
    rw [u32_toNat (by omega), h.contentOwned.length_eq]
    exact hle
  contentOffset := by
    intro i b hb _
    obtain ⟨b₀, hb₀, rfl⟩ := exists_of_getElem?_rebased hb
    have hle := h.contentBefore_lt (List.getElem?_eq_some_iff.1 hb₀).1.le
    have hcount := h.contentCount
    rw [contentBefore_rebased]
    exact u32_toNat (by omega)
  contentOwned := by
    rw [contentBefore_rebased, length_rebased]
    exact h.length_ownedContent.symm
  contentFields := fun c hc => (h.content c (h.contentOwned.mem_iff.1 hc)).fields
  runOrder := h.runOrder
  runBlock := by
    rw [length_rebased]
    exact h.runBlock
  runRange := h.runRange
  runParent := h.runParent
  strings := h.strings

/-- The records encode as they do in block order. -/
theorem encode_rebased : ∃ words, ex.encode = some (ex, words) ∧
    ex.rebased.encode = some (ex.rebased, words) := by
  obtain ⟨records, hcount, hrecords, hencode⟩ := encode_eq h.wellFormed
  refine ⟨_, ?_, hencode⟩
  have hslots : ex.blocks.length ≤ (firstRuns ex.runs ex.blocks.length).length :=
    (List.getElem?_eq_some_iff.1 (getElem?_firstRuns le_rfl)).1.le
  obtain ⟨packed, hpacked, hcontent, hextras, records', hblocks, hcount', hrecords'⟩ :=
    @packBlocks_spec ex ex.blocks ⟨[], [], []⟩ _ h.contentSlice hslots
  simp only [List.nil_append, List.length_nil, Nat.zero_add] at hcontent hextras hblocks hrecords'
  -- A block record does not depend on its content offset.
  have heq : records' = records := by
    refine List.ext_getElem? fun i => ?_
    rcases Nat.lt_or_ge i ex.blocks.length with hi | hi
    · have hb := List.getElem?_eq_getElem hi
      rw [hrecords' i _ _ hb (getElem?_firstRuns hi.le), hrecords i _ (getElem?_rebased hb),
        length_flatMap_blockRecords h.contentSlice, Nat.mul_div_cancel _ (by decide),
        publishedBlock, contentBefore_rebased]
      change _ = some (blockWords ex.li _ _ (blockExtras ex.li _).length _)
      rw [blockExtras_rebased]
      rfl
    · rw [List.getElem?_eq_none (by omega), List.getElem?_eq_none (by
        rw [hcount, length_rebased]
        exact hi)]
  have hfit : (blockExtras ex.li ex.blocks).length + (runExtras ex.li 0 ex.runs).length <
      2 ^ 32 := h.extraWords.trans (by decide)
  have hruns := @packRuns_spec ex.li ex.runs ⟨[], [], blockExtras ex.li ex.blocks⟩ 0 hfit
  have hsections : ex.packSections = some (publishedSections ex.rebased records) := by
    rw [Extractor.packSections, hpacked]
    simp only [Option.bind_eq_bind, Option.bind_some, Option.pure_def, hextras, hruns, hblocks,
      hcontent, heq, List.nil_append]
    rw [publishedSections]
    change _ = some (Sections.mk _ _ _ ((runIndex ex.li (blockExtras ex.li ex.rebased.blocks).length
      0 ex.runs).flatMap indexWords) (blockExtras ex.li ex.rebased.blocks ++ _))
    rw [blockExtras_eq]
    rfl
  have hkept : (publishedSections ex.rebased records).content.length /
      RenderModelSchema.contentWords = ex.content.length := by
    rw [publishedSections, length_flatMap_width fun c _ => length_contentWords c]
    exact (Nat.mul_div_cancel _ (by decide)).trans h.contentOwned.length_eq
  have hnote : ex.notePacking (publishedSections ex.rebased records) = ex := by
    rw [Extractor.notePacking, show packingOverflow ex.ownedContent = none from
      h.wellFormed.packingOverflow_eq_none]
    exact if_neg (not_not.2 hkept)
  rw [Extractor.encode, hsections, Option.bind_eq_bind, Option.bind_some, hnote]
  have hheader : headerWords ex (publishedSections ex.rebased records) =
      headerWords ex.rebased (publishedSections ex.rebased records) := by
    rw [headerWords, headerWords, length_rebased]
    rfl
  rw [outWords, outWords, hheader]
  rfl

end Expandable

/-! ## The sections -/

/-- The model of the words. -/
def Expander.model (x : Expander) : RenderModel := ⟨toBytes x.words, x.words⟩

/-- The words of the records in block order, expanded with their source. -/
structure Expands (src : Str) (ex : Extractor) (records : List (List UInt32)) (x : Expander) :
    Prop where
  expandable : Expandable src ex
  byteOf : x.byteOf = byteOfFrom 0 src
  published : Published ex.rebased records x.model

theorem word_eq {x : Expander} {i : Nat} {w : UInt32} (h : x.model.word i = w.toNat) :
    x.word i = w :=
  UInt32.toNat_inj.1 h

theorem ok_bind {α β : Type} (a : α) (f : α → Checked β) : (Except.ok a >>= f) = f a := rfl

/-- Parts that are each expanded are expanded together. -/
theorem mapM_ok {α β : Type} {f : α → Checked β} {g : α → β} {l : List α}
    (h : ∀ a ∈ l, f a = .ok (g a)) : l.mapM f = .ok (l.map g) := by
  induction l with
  | nil => rfl
  | cons a l ih =>
    obtain ⟨ha, hl⟩ := List.forall_mem_cons.1 h
    rw [List.mapM_cons, ha, ih hl]
    rfl

/-- A section whose records are expanded one by one. -/
theorem mapM_range_ok {α β : Type} {f : Nat → Checked β} {g : α → β} {l : List α}
    (h : ∀ (i : Nat) a, l[i]? = some a → f i = .ok (g a)) :
    (List.range l.length).mapM f = .ok (l.map g) := by
  induction l using List.reverseRecOn with
  | nil => rfl
  | append_singleton l a ih =>
    have hlast := h l.length a (by simp)
    have hinit := ih fun i b hb => h i b (by
      rw [List.getElem?_append_left (List.getElem?_eq_some_iff.1 hb).1]
      exact hb)
    rw [List.length_append, List.length_singleton, List.range_succ, List.mapM_append, hinit,
      List.mapM_cons, hlast, List.map_append]
    rfl

namespace Expands

variable {records : List (List UInt32)} {x : Expander} (h : Expands src ex records x)
include h

theorem len_lt : Str.len src < 2 ^ 32 := by
  have := h.expandable.srcLength
  rwa [h.expandable.source, Str.length_utf8] at this

theorem li_eq : ex.li = LineIndex.new (utf8 src) := by
  rw [h.expandable.lineIndex, h.expandable.source]

/-- A scalar boundary is found by its UTF-16 offset. -/
theorem byte_boundary {b : Nat} (hb : Str.isCharBoundary src b = true) (what : String) :
    x.byte (ex.li.u16 b) what = .ok (u32 b) := by
  rw [h.li_eq]
  exact byte_eq h.len_lt h.byteOf hb what

/-- A place at a character is expanded to its byte. -/
theorem byte_word {b : UInt32} (hb : Str.isCharBoundary src b.toNat = true) (what : String) :
    x.byte (ex.li.u16 b.toNat) what = .ok b := by
  rw [h.byte_boundary hb]
  exact congrArg Except.ok (UInt32.toNat_inj.1 (u32_toNat b.toNat_lt))

/-- A place on a scalar is expanded to its byte. -/
theorem byte_scalar {byte utf16 : UInt32} (hb : OnScalar src ex.li byte utf16) (what : String) :
    x.byte utf16 what = .ok byte := by
  rw [hb.2]
  exact h.byte_word hb.1 what

/-- An extra record is found at the length of the extras before it. -/
theorem extraAt_eq (before after : List UInt32) {words : List UInt32}
    (hsplit : extras ex.rebased = before ++ (words ++ after)) {offset : UInt32}
    (hoffset : offset.toNat = before.length) {n : Nat} (hn : words.length = n) (what : String) :
    x.extraAt offset n what = .ok words := by
  have hne : x.ne = (extras ex.rebased).length := by
    rw [extras, List.length_append]
    exact h.published.extraWords
  have hoff : x.extrasOff = (beforeExtras ex.rebased records).length := h.published.extrasOff
  have hwords : x.words = beforeExtras ex.rebased records ++ extras ex.rebased ++
      stringWords ex.rebased.strings := h.published.words_eq
  rw [Expander.extraAt, if_neg (by
    rw [hne, hsplit, List.length_append, List.length_append]
    omega), hoff, hwords, List.append_assoc, List.drop_append, List.drop_of_length_le (by omega),
    List.nil_append, Nat.add_sub_cancel_left, hsplit, hoffset, List.append_assoc, List.drop_left,
    List.append_assoc, ← hn, List.take_left]

/-- Where a line starts is a scalar boundary. -/
theorem lineStart_boundary {l : Nat} (hl : l < ex.li.lineCount) :
    Str.isCharBoundary src (ex.li.lineStart l) = true := by
  rw [LineIndex.lineCount] at hl
  have hmem : ex.li.lineStart l ∈ ex.li.lineStarts := by
    rw [LineIndex.lineStart, Nat.min_eq_left (by omega), List.getD_eq_getElem _ _ hl]
    exact List.getElem_mem hl
  rw [h.li_eq] at hmem ⊢
  rcases SplitsLines.behindBreak (LineIndex.splitsLines_new h.len_lt) hmem with hzero |
    ⟨before, b, rest, hsrc, hstart, hb⟩
  · rw [hzero]
    exact Str.isCharBoundary_zero src
  · -- Behind a line ending, which is a scalar of one byte.
    have hbyte : (utf8 src)[before.length]? = some b := by
      rw [hsrc, List.getElem?_append_right le_rfl, Nat.sub_self]
      rfl
    have hascii : b.toNat < 0x80 := by
      rcases hb with rfl | rfl
      · decide
      · decide
    obtain ⟨p, c, t, rfl, hp, hc⟩ := Str.exists_of_ascii hbyte hascii
    refine Str.isCharBoundary_iff.2 ⟨p ++ [c], t, by simp, ?_⟩
    have hone : Str.len [c] = 1 := by
      rw [Str.len, utf8_cons, hc]
      rfl
    rw [Str.len_append, hp, hstart, hone, Nat.zero_add]

/-- A line is expanded to its starts. -/
theorem line_eq {l : Nat} (hl : l < ex.li.lineCount) :
    x.line l = .ok [u32 (ex.li.lineStart l), ex.li.u16 (ex.li.lineStart l)] := by
  have hword : x.word (Expander.linesOff + l) = ex.li.u16 (ex.li.lineStart l) := by
    refine word_eq ?_
    have := h.published.lineStart_eq hl
    rw [RenderModel.lineStartUtf16, RenderModelSchema.lineWords, Nat.mul_one] at this
    exact this
  rw [Expander.line, hword, h.byte_boundary (h.lineStart_boundary hl)]
  rfl

/-- A piece of content is expanded to its words. -/
theorem content_eq {i : Nat} {c : ContentRec} (hc : ex.rebased.content[i]? = some c) :
    x.content i = .ok c.words := by
  have hsound := h.expandable.content c
    (h.expandable.contentOwned.mem_iff.1 (List.mem_of_getElem? hc))
  have hreads := h.published.contentReads hc
  have hfield : ∀ k, k < 4 → x.word (x.contentOff + i * RenderModelSchema.contentWords + k) =
      (contentWords c).getD k 0 := fun k hk => word_eq (h.published.content_eq hc hk)
  have hline : x.word (x.contentOff + i * RenderModelSchema.contentWords + 3) >>> 0 &&& 0x3FFFFFFF =
      c.line := by
    refine UInt32.toNat_inj.1 (Eq.trans ?_ hreads.line)
    rw [UInt32.toNat_and, UInt32.toNat_shiftRight]
    rfl
  have hvirtual : x.word (x.contentOff + i * RenderModelSchema.contentWords + 3) >>> 30 &&& 0x3 =
      c.virtualLeadingSpaces := by
    refine UInt32.toNat_inj.1 (Eq.trans ?_ hreads.virtualSpaces)
    rw [UInt32.toNat_and, UInt32.toNat_shiftRight]
    rfl
  have h₀ : x.word (x.contentOff + i * RenderModelSchema.contentWords + 0) = c.startUtf16 :=
    hfield 0 (by decide)
  have h₁ : x.word (x.contentOff + i * RenderModelSchema.contentWords + 1) = c.endUtf16 :=
    hfield 1 (by decide)
  have h₂ : x.word (x.contentOff + i * RenderModelSchema.contentWords + 2) = c.prefixStartUtf16 :=
    hfield 2 (by decide)
  simp only [Expander.content, h₀, h₁, h₂, hline, hvirtual, h.byte_scalar hsound.start,
    h.byte_scalar hsound.stop, h.byte_scalar hsound.prefixStart]
  rfl

/-- A definition is expanded to its words. -/
theorem definition_eq {i : Nat} {d : Definition} (hd : ex.definitions[i]? = some d) :
    x.definition i = .ok (d.words ex.li) := by
  have hsound := h.expandable.definitions d (List.mem_of_getElem? hd)
  have hbyte : ∀ (offset : Nat) (what : String),
      offset ∈ [d.start, d.stop, d.label.1, d.label.2, d.dest.1, d.dest.2] →
        x.byte (ex.li.u16 offset) what = .ok (u32 offset) := fun offset what hoffset =>
    h.byte_boundary (hsound offset hoffset) what
  have hfield : ∀ k, k < 6 →
      x.word (x.defsOff + i * RenderModelSchema.definitionWords + k) =
        (definitionWords ex.li d).getD k 0 := fun k hk => word_eq (h.published.definition_eq hd hk)
  simp only [Expander.definition, hfield _ (by decide : 0 < 6), hfield _ (by decide : 1 < 6),
    hfield _ (by decide : 2 < 6), hfield _ (by decide : 3 < 6), hfield _ (by decide : 4 < 6),
    hfield _ (by decide : 5 < 6), definitionWords, List.getD_cons_zero, List.getD_cons_succ]
  rw [hbyte d.start _ (by simp), hbyte d.stop _ (by simp), hbyte d.label.1 _ (by simp),
    hbyte d.label.2 _ (by simp), hbyte d.dest.1 _ (by simp), hbyte d.dest.2 _ (by simp)]
  rfl

/-! ### Blocks -/

variable {i : Nat} {b : BlockRec}

/-- A field of a block is the one published for it. -/
theorem blk_eq (hb : ex.rebased.blocks[i]? = some b) {k : Nat} (hk : k < 10) :
    x.blk i k = (publishedBlock ex.rebased i b).getD k 0 :=
  word_eq (h.published.block_eq hb hk)

/-- The content before a block is counted up. -/
theorem contentAt_eq (hi : i ≤ ex.blocks.length) :
    x.contentAt i = u32 (contentBefore ex.blocks i) := by
  have hnb : x.nb = ex.blocks.length := h.published.blockCount.trans length_rebased
  have hnc : x.nc = ex.ownedContent.length := h.published.contentCount
  rw [Expander.contentAt, hnb]
  split
  · next hlt =>
    rw [h.blk_eq (getElem?_rebased (List.getElem?_eq_getElem hlt)) (by decide),
      ← contentBefore_rebased]
    rfl
  · next hge => rw [hnc, h.expandable.length_ownedContent, Nat.le_antisymm hi (Nat.not_lt.1 hge)]

/-- The extra record of a block. -/
theorem blockExtraAt_eq (hb : ex.rebased.blocks[i]? = some b) {words : List UInt32}
    (hwords : (blockFields ex.li b).extra = words) (hne : words ≠ []) {n : Nat}
    (hn : words.length = n) (what : String) : x.extraAt (x.blk i 9) n what = .ok words := by
  obtain ⟨hlt, hget⟩ := List.getElem?_eq_some_iff.1 hb
  have hsplit : blockExtras ex.li ex.rebased.blocks =
      blockExtras ex.li (ex.rebased.blocks.take i) ++
        (words ++ blockExtras ex.li (ex.rebased.blocks.drop (i + 1))) := by
    conv_lhs =>
      rw [← List.take_append_drop i ex.rebased.blocks, List.drop_eq_getElem_cons hlt, hget]
    rw [blockExtras, List.flatMap_append, List.flatMap_cons, hwords]
    rfl
  have hfit := h.expandable.wellFormed.extraWords
  change (blockExtras ex.li ex.rebased.blocks).length + _ < _ at hfit
  rw [hsplit, List.length_append] at hfit
  have hoffset : x.blk i 9 = u32 (blockExtras ex.li (ex.rebased.blocks.take i)).length := by
    rw [h.blk_eq hb (by decide)]
    change (if (blockFields ex.li b).extra.isEmpty then _ else _) = _
    rw [hwords, List.isEmpty_eq_false_iff.2 hne]
    rfl
  refine h.extraAt_eq (blockExtras ex.li (ex.rebased.blocks.take i))
    (blockExtras ex.li (ex.rebased.blocks.drop (i + 1)) ++ runExtras ex.li 0 ex.runs) ?_ ?_ hn what
  · change blockExtras ex.li ex.rebased.blocks ++ runExtras ex.li 0 ex.runs = _
    rw [hsplit, List.append_assoc, List.append_assoc]
  · rw [hoffset, u32_toNat (by omega)]

/-- A block owns an extra record where it has one. -/
theorem blockOwnsExtra_eq (hb : ex.rebased.blocks[i]? = some b) :
    Expander.blockOwnsExtra b.kind.toNat (blockFields ex.li b).flags =
      decide (x.blk i 9 ≠ u32 RenderModelSchema.noExtra) := by
  -- The kinds that own an extra are those that write one, a code block if it is fenced.
  have howns : Expander.blockOwnsExtra b.kind.toNat (blockFields ex.li b).flags =
      !(blockFields ex.li b).extra.isEmpty := by
    rw [Expander.blockOwnsExtra, blockFields]
    split
    · next hcode =>
      simp only [hcode, true_and]
      split
      · next hfenced => simp [hfenced]
      · next hplain =>
        simp [BlockKind.codeBlock, BlockKind.list, BlockKind.item, BlockKind.table,
          BlockKind.footnoteDefinition, not_not.1 hplain]
    · next hcode =>
      simp only [hcode, false_and, if_false]
      split_ifs with hlist hitem htable hfootnote
      · simp [hlist, BlockKind.list, BlockKind.item, BlockKind.table, BlockKind.footnoteDefinition]
      · simp [hitem]
      · simp [htable]
      · simp [hfootnote]
      · simp [hitem, htable, hfootnote]
  have hfit := h.expandable.wellFormed.extraWords
  change (blockExtras ex.li ex.rebased.blocks).length + _ < _ at hfit
  have hle : (blockExtras ex.li (ex.rebased.blocks.take i)).length ≤
      (blockExtras ex.li ex.rebased.blocks).length := by
    conv_rhs => rw [← List.take_append_drop i ex.rebased.blocks, blockExtras, List.flatMap_append,
      List.length_append]
    exact Nat.le_add_right _ _
  -- The mark of no extra is no offset of one, as all extras are fewer.
  have hoffset : x.blk i 9 = if (blockFields ex.li b).extra.isEmpty then
      u32 RenderModelSchema.noExtra else
        u32 (blockExtras ex.li (ex.rebased.blocks.take i)).length :=
    h.blk_eq hb (by decide)
  rw [howns, hoffset]
  cases (blockFields ex.li b).extra.isEmpty with
  | true => simp
  | false =>
    rw [if_neg Bool.false_ne_true, Bool.not_false, eq_comm, decide_eq_true_eq, Ne,
      ← UInt32.toNat_inj, u32_toNat (by omega)]
    change _ ≠ 2 ^ 32 - 1
    omega

/-- The attributes of a block. -/
theorem blockAttrs_eq (hb : ex.rebased.blocks[i]? = some b) (hsound : b.Sound src ex.li) :
    x.blockAttrs b.kind.toNat (blockFields ex.li b).flags (blockFields ex.li b).attr (x.blk i 9) =
      .ok ⟨b.attr0, b.attr1, b.attr2, b.flags, (b.markerEndByte, b.markerEndUtf16)⟩ := by
  have hfields := blockFields_flags ex.li (b := b)
  have hattr := blockFields_attr ex.li (b := b)
  by_cases hlist : b.kind.toNat = BlockKind.list
  · obtain ⟨hordered, hflags⟩ := hsound.list hlist
    obtain ⟨hmarker, hmarker'⟩ := hsound.noMarker (by rw [hlist]; decide)
    have hattr2 := hsound.noAttr2 (by
      rw [BlockRec.IsFenced, hlist]
      rintro (⟨hkind, -⟩ | hkind | hkind) <;> exact absurd hkind (by decide))
    have hone : (b.attr0 &&& 1).toNat = b.attr0.toNat := by
      rw [UInt32.toNat_and]
      exact (Nat.and_one_is_mod _).trans (Nat.mod_eq_of_lt (Nat.lt_succ_of_le hordered))
    have hpacked :
        (b.flags ||| (b.attr0 &&& 1) <<< 1).toNat = b.flags.toNat + b.attr0.toNat * 2 := by
      rw [← hone]
      refine toNat_or_shiftLeft (s := 1) (by decide) (Nat.lt_succ_of_le hflags) ?_
      rw [hone]
      change _ * 2 < _
      omega
    have hattr0 : (b.flags ||| (b.attr0 &&& 1) <<< 1) >>> 1 &&& 1 = b.attr0 := by
      rw [← UInt32.toNat_inj, UInt32.toNat_and, UInt32.toNat_shiftRight, hpacked]
      change (_ >>> 1) &&& 1 = _
      rw [Nat.shiftRight_eq_div_pow, Nat.and_one_is_mod]
      omega
    have hflag : (b.flags ||| (b.attr0 &&& 1) <<< 1) &&& 1 = b.flags := by
      rw [← UInt32.toNat_inj, UInt32.toNat_and, hpacked]
      change _ &&& 1 = _
      rw [Nat.and_one_is_mod]
      omega
    rw [if_pos hlist] at hfields hattr
    rw [hfields, hattr, Expander.blockAttrs, if_neg (by
      rw [hlist]
      exact fun hkind => absurd hkind.1 (by decide)), if_pos hlist, hattr0, hflag, hattr2, hmarker,
      hmarker']
  -- Of the others, by what each kind has as extra words.
  · rw [if_neg hlist] at hfields hattr
    rw [hfields, hattr, Expander.blockAttrs]
    split
    · next hfenced =>
      obtain ⟨hattr1, hattr2⟩ := hsound.attrs (Or.inl hfenced)
      obtain ⟨hmarker, hmarker'⟩ := hsound.noMarker (by rw [hfenced.1]; decide)
      rw [h.blockExtraAt_eq hb (blockFields_extra_codeBlock ex.li hfenced.1 hfenced.2) (by simp)
        (show _ = 2 from rfl)]
      simp only [ok_bind, List.getD_cons_zero, List.getD_cons_succ, h.byte_word hattr1,
        h.byte_word hattr2, hmarker, hmarker']
      rfl
    next hfenced =>
    split
    · next hitem =>
      obtain ⟨hattr1, hattr2⟩ := hsound.attrs (Or.inr (Or.inl hitem))
      rw [h.blockExtraAt_eq hb (blockFields_extra_item ex.li hitem) (by simp)
        (show _ = 3 from rfl)]
      simp only [ok_bind, List.getD_cons_zero, List.getD_cons_succ, h.byte_word hattr1,
        h.byte_word hattr2, h.byte_scalar (hsound.marker hitem)]
      rfl
    next hitem =>
    obtain ⟨hmarker, hmarker'⟩ := hsound.noMarker hitem
    split
    · next htable =>
      have hattr2 := hsound.noAttr2 (by
        rw [BlockRec.IsFenced, htable]
        rintro (⟨hkind, -⟩ | hkind | hkind) <;> exact absurd hkind (by decide))
      rw [h.blockExtraAt_eq hb (blockFields_extra_table ex.li htable) (by simp)
        (show _ = 1 from rfl), hattr2, hmarker, hmarker']
      rfl
    next htable =>
    split
    · next hfootnote =>
      obtain ⟨hattr1, hattr2⟩ := hsound.attrs (Or.inr (Or.inr hfootnote))
      rw [h.blockExtraAt_eq hb (blockFields_extra_footnoteDefinition ex.li hfootnote) (by simp)
        (show _ = 2 from rfl)]
      simp only [ok_bind, List.getD_cons_zero, List.getD_cons_succ, h.byte_word hattr1,
        h.byte_word hattr2, hmarker, hmarker']
      rfl
    next hfootnote =>
    rw [hsound.noAttr1 (by simp [BlockRec.IsFenced, hfenced, hlist, hitem, htable, hfootnote]),
      hsound.noAttr2 (by simp [BlockRec.IsFenced, hfenced, hitem, hfootnote]), hmarker, hmarker']

/-- A block is expanded to its words, by its kind. -/
theorem block_eq (hb : ex.rebased.blocks[i]? = some b) : x.block i = .ok b.words := by
  obtain ⟨b₀, hb₀, hrebased⟩ := exists_of_getElem?_rebased hb
  have hsound₀ := h.expandable.blocks b₀ (List.mem_of_getElem? hb₀)
  have hlt := (List.getElem?_eq_some_iff.1 hb₀).1
  have hsound : b.Sound src ex.li := by
    subst hrebased
    exact ⟨hsound₀.start, hsound₀.stop, hsound₀.attrs, hsound₀.marker, hsound₀.list,
      hsound₀.noMarker, hsound₀.noAttr2, hsound₀.noAttr1⟩
  have hreads := h.published.blockReads hb
  have hkind : x.blk i 0 >>> 0 &&& 0xFF = b.kind := by
    refine UInt32.toNat_inj.1 (Eq.trans ?_ hreads.kind)
    rw [UInt32.toNat_and, UInt32.toNat_shiftRight]
    rfl
  have hflags : x.blk i 0 >>> 8 &&& 0xFFFFFF = (blockFields ex.li b).flags := by
    refine UInt32.toNat_inj.1 (Eq.trans ?_ (hreads.flags.trans ?_))
    · rw [UInt32.toNat_and, UInt32.toNat_shiftRight]
      rfl
    · rw [blockFields_flags]
      split <;> rfl
  -- The content records of the block are those between two indices.
  have hcount : x.contentAt (i + 1) - x.contentAt i = b.contentCount := by
    have hle := h.expandable.contentBefore_lt (Nat.succ_le_of_lt hlt)
    have hfit := h.expandable.contentCount
    have hsucc := contentBefore_succ hb₀
    rw [Nat.succ_eq_add_one] at hle
    rw [h.contentAt_eq (show i + 1 ≤ _ from hlt), h.contentAt_eq hlt.le, hrebased]
    refine UInt32.toNat_inj.1 ?_
    rw [UInt32.toNat_sub_of_le, u32_toNat (by omega), u32_toNat (by omega)]
    · change _ = b₀.contentCount.toNat
      omega
    · rw [UInt32.le_iff_toNat_le, u32_toNat (by omega), u32_toNat (by omega)]
      omega
  have hoffset : x.contentAt i = b.contentOffset := by
    rw [h.contentAt_eq hlt.le, hrebased]
  have hfield : ∀ k, k < 10 → x.blk i k = (publishedBlock ex.rebased i b).getD k 0 :=
    fun k hk => h.blk_eq hb hk
  have h₁ : x.blk i 1 = b.parent := hfield 1 (by decide)
  have h₂ : x.blk i 2 = b.startUtf16 := hfield 2 (by decide)
  have h₃ : x.blk i 3 = b.endUtf16 := hfield 3 (by decide)
  have h₄ : x.blk i 4 = b.firstLine := hfield 4 (by decide)
  have h₅ : x.blk i 5 = b.lineCount := hfield 5 (by decide)
  have h₈ : x.blk i 8 = (blockFields ex.li b).attr := hfield 8 (by decide)
  rw [Expander.block, hcount, hoffset]
  simp only [hkind, hflags, h₁, h₂, h₃, h₄, h₅, h₈, h.blockOwnsExtra_eq hb,
    h.blockAttrs_eq hb hsound, ne_eq, not_true_eq_false, if_false, h.byte_scalar hsound.start,
    h.byte_scalar hsound.stop]
  rfl

end Expands

end

end Flark.Native
