import Flark.Native.Encode
import Flark.Parse.RenderModel
import Mathlib.Data.List.TakeWhile

/-!
# The wire format

What the extractor encodes (`Flark.Native.Encode`) and what the host reads
(`Flark.Parse.RenderModel`) are two programs over one packed layout. This module shows
that they agree, for records that meet the invariants of the extractor (`WellFormed`):

* `encode_eq`: encoding notes no deviation and yields the sections in closed form;
* `readsRecords`: every accessor gives back the value of the record, for narrow and wide
  runs, with or without a parent;
* `encode_readsBack`: strings come back too, exactly if none begins with a byte order
  mark, which the decoder of the host discards.
-/

namespace Flark

open Native Packing Bisect

/-! ## What a record says -/

namespace Native

/-- The kinds with a destination and a title. -/
def RunRec.isLink (r : RunRec) : Prop :=
  r.kind.toNat = RunKind.link ∨ r.kind.toNat = RunKind.image ∨ r.kind.toNat = RunKind.autolink

/-- The run displays text of the string table. -/
def RunRec.displaysString (r : RunRec) : Prop :=
  r.kind.toNat = RunKind.replacement ∨ r.kind.toNat = RunKind.code ∧ r.flags &&& 2 ≠ 0

instance (r : RunRec) : Decidable r.isLink := inferInstanceAs (Decidable (_ ∨ _))

instance (r : RunRec) : Decidable r.displaysString := inferInstanceAs (Decidable (_ ∨ _))

/-- Where in the string table the display text of a run is. -/
def RunRec.displayRef (r : RunRec) : UInt32 × UInt32 :=
  if r.kind.toNat = RunKind.replacement then (r.aux0, r.aux1) else (r.aux2, r.aux3)

/-- Where in the string table the strings of a run are. -/
def RunRec.stringRefs (r : RunRec) : List (UInt32 × UInt32) :=
  if r.isLink then
    [(r.destinationOffset, r.destinationLength), (r.titleOffset, r.titleLength)]
  else if r.displaysString then [r.displayRef] else []

/-- The bytes of an entry of the string table. -/
def Extractor.stringBytes (ex : Extractor) (ref : UInt32 × UInt32) : List UInt8 :=
  (ex.strings.drop ref.1.toNat).take ref.2.toNat

/-- The first content record of block `i` in block order. -/
def contentBefore (blocks : List BlockRec) (i : Nat) : Nat :=
  ((blocks.take i).map fun b => b.contentCount.toNat).sum

/-- The invariants of the records that the extractor maintains. -/
structure WellFormed (ex : Extractor) : Prop where
  srcLength : ex.src.length < 2 ^ 32
  lineCount : ex.li.lineCount < 2 ^ 32
  blockCount : ex.blocks.length < 2 ^ 32
  contentCount : ex.content.length < 2 ^ 32
  runCount : ex.runs.length < 2 ^ 32
  definitionCount : ex.definitions.length < 2 ^ 32
  stringBytes : ex.strings.length < 2 ^ 32
  /-- An offset into the extras is a word, other than the sentinel for none. -/
  extraWords :
    (blockExtras ex.li ex.blocks).length + (runExtras ex.li 0 ex.runs).length < 2 ^ 32 - 1
  /-- Kinds and flags fit their fields. -/
  blockFields : ∀ b ∈ ex.blocks, b.kind.toNat < 2 ^ 8 ∧ b.flags.toNat < 2 ^ 24
  runKind : ∀ r ∈ ex.runs, r.kind.toNat < 2 ^ 8
  /-- The content slices of the blocks are inside the records. -/
  contentSlice : ∀ b ∈ ex.blocks,
    b.contentOffset.toNat + b.contentCount.toNat ≤ ex.content.length
  /-- Content records are grouped by block, in block order. -/
  contentOffset : ∀ i b, ex.blocks[i]? = some b → b.contentCount ≠ 0 →
    b.contentOffset.toNat = contentBefore ex.blocks i
  contentOwned : contentBefore ex.blocks ex.blocks.length = ex.content.length
  /-- Lines and virtual columns fit their fields. -/
  contentFields : ∀ c ∈ ex.content, c.line.toNat < 2 ^ 30 ∧ c.virtualLeadingSpaces.toNat ≤ 3
  /-- Runs are listed in block order. -/
  runOrder : ex.runs.Pairwise fun r r' => r.block ≤ r'.block
  runBlock : ∀ r ∈ ex.runs, r.block.toNat < ex.blocks.length
  /-- Start, content start, content end and end of a run are in this order. -/
  runRange : ∀ r ∈ ex.runs, r.startUtf16 ≤ r.contentStartUtf16 ∧
    r.contentStartUtf16 ≤ r.contentEndUtf16 ∧ r.contentEndUtf16 ≤ r.endUtf16
  /-- The parent of a run is an earlier run of the same block. -/
  runParent : ∀ (i : Nat) r, ex.runs[i]? = some r → r.parent = Native.noParent ∨
    r.parent.toNat < i ∧ ∃ q, ex.runs[r.parent.toNat]? = some q ∧ q.block = r.block
  /-- The strings of a run are in the table, and UTF-8. -/
  strings : ∀ r ∈ ex.runs, ∀ ref ∈ r.stringRefs,
    ref.1.toNat + ref.2.toNat ≤ ex.strings.length ∧ (utf16OfUtf8 (ex.stringBytes ref)).isSome

end Native

/-- The accessors of block `i` give back the record. -/
structure BlockReads (ex : Extractor) (m : RenderModel) (i : Nat) (b : BlockRec) : Prop where
  kind : m.blockKind i = b.kind.toNat
  /-- A list is ordered by its flags in the model, and by its attribute in the record. -/
  flags : m.blockFlags i = if b.kind.toNat = BlockKind.list
    then (b.flags ||| (b.attr0 &&& 1) <<< 1).toNat else b.flags.toNat
  attr : m.blockAttr i =
    if b.kind.toNat = BlockKind.list then b.attr1.toNat else b.attr0.toNat
  parent : m.blockParent i = b.parent.toNat
  start : m.blockStart i = b.startUtf16.toNat
  stop : m.blockEnd i = b.endUtf16.toNat
  firstLine : m.blockFirstLine i = b.firstLine.toNat
  lineCount : m.blockLineCount i = b.lineCount.toNat
  contentCount : m.blockContentCount i = b.contentCount.toNat
  contentOffset : b.contentCount ≠ 0 → m.blockContentOffset i = b.contentOffset.toNat
  /-- The runs between the first runs of this block and of the next are its runs. -/
  runs : ∀ (j : Nat) r, ex.runs[j]? = some r →
    (m.firstRunOfBlock i ≤ j ∧ j < m.firstRunOfBlock (i + 1) ↔ r.block.toNat = i)
  codeInfo : b.kind.toNat = BlockKind.codeBlock →
    (m.codeInfoStart i, m.codeInfoEnd i) = if b.flags &&& 1 ≠ 0
      then ((ex.li.u16 b.attr1.toNat).toNat, (ex.li.u16 b.attr2.toNat).toNat) else (0, 0)
  item : b.kind.toNat = BlockKind.item →
    m.itemMarkerEnd i = b.markerEndUtf16.toNat ∧
    m.itemTaskStart i = (ex.li.u16 b.attr1.toNat).toNat ∧
    m.itemTaskEnd i = (ex.li.u16 b.attr2.toNat).toNat
  alignments : b.kind.toNat = BlockKind.table → m.tableAlignments i = b.attr1.toNat
  footnoteLabel : b.kind.toNat = BlockKind.footnoteDefinition →
    m.footnoteLabelStart i = (ex.li.u16 b.attr1.toNat).toNat ∧
    m.footnoteLabelEnd i = (ex.li.u16 b.attr2.toNat).toNat

/-- The accessors of content record `i` give back the record. -/
structure ContentReads (m : RenderModel) (i : Nat) (c : ContentRec) : Prop where
  line : m.contentLine i = c.line.toNat
  virtualSpaces : m.contentVirtualSpaces i = c.virtualLeadingSpaces.toNat
  start : m.contentStart i = c.startUtf16.toNat
  stop : m.contentEnd i = c.endUtf16.toNat
  prefixStart : m.contentPrefixStart i = c.prefixStartUtf16.toNat

/-- The accessors of run `i` give back the record, its strings apart. -/
structure RunReads (ex : Extractor) (m : RenderModel) (i : Nat) (r : RunRec) : Prop where
  kind : m.runKind i = r.kind.toNat
  reference : (m.runFlags i).testBit 0 = r.flags.toNat.testBit 0
  displayFromStrings : (m.runFlags i).testBit 1 = r.flags.toNat.testBit 1
  spansLines : (m.runFlags i).testBit 2 = r.flags.toNat.testBit 8
  block : m.runBlock i = r.block.toNat
  parent : m.runParent i = r.parent.toNat
  start : m.runStart i = r.startUtf16.toNat
  stop : m.runEnd i = r.endUtf16.toNat
  contentStart : m.runContentStart i = r.contentStartUtf16.toNat
  contentEnd : m.runContentEnd i = r.contentEndUtf16.toNat
  link : r.isLink →
    m.linkDestinationStart i = (ex.li.u16 r.aux0.toNat).toNat ∧
    m.linkDestinationEnd i = (ex.li.u16 r.aux1.toNat).toNat ∧
    m.linkTitleStart i = (ex.li.u16 r.aux2.toNat).toNat ∧
    m.linkTitleEnd i = (ex.li.u16 r.aux3.toNat).toNat
  footnoteRef : r.kind.toNat = RunKind.footnoteRef →
    m.footnoteRefLabelStart i = (ex.li.u16 r.aux0.toNat).toNat ∧
    m.footnoteRefLabelEnd i = (ex.li.u16 r.aux1.toNat).toNat

/-- The strings of run `i` are those of the record. -/
structure RunStringsRead (ex : Extractor) (m : RenderModel) (i : Nat) (r : RunRec) : Prop where
  destination : r.isLink → m.linkDestination i =
    utf16OfUtf8 (ex.stringBytes (r.destinationOffset, r.destinationLength))
  title : r.isLink → m.linkTitle i =
    utf16OfUtf8 (ex.stringBytes (r.titleOffset, r.titleLength))
  display : m.displayOverride i =
    if r.displaysString then some (utf16OfUtf8 (ex.stringBytes r.displayRef)) else none

/-- The accessors of definition `i` give back the record. -/
structure DefinitionReads (ex : Extractor) (m : RenderModel) (i : Nat) (d : Definition) :
    Prop where
  start : m.definitionStart i = (ex.li.u16 d.start).toNat
  stop : m.definitionEnd i = (ex.li.u16 d.stop).toNat
  labelStart : m.definitionLabelStart i = (ex.li.u16 d.label.1).toNat
  labelEnd : m.definitionLabelEnd i = (ex.li.u16 d.label.2).toNat
  destinationStart : m.definitionDestinationStart i = (ex.li.u16 d.dest.1).toNat
  destinationEnd : m.definitionDestinationEnd i = (ex.li.u16 d.dest.2).toNat

/-- The model gives back the records, the strings of runs apart. -/
structure ReadsRecords (ex : Extractor) (m : RenderModel) : Prop where
  sourceBytes : m.sourceBytes = ex.src.length
  sourceUtf16 : m.sourceUtf16 = (ex.li.u16 ex.src.length).toNat
  lineCount : m.lineCount = ex.li.lineCount
  blockCount : m.blockCount = ex.blocks.length
  contentCount : m.contentCount = ex.content.length
  runCount : m.runCount = ex.runs.length
  definitionCount : m.definitionCount = ex.definitions.length
  lines : ∀ l < ex.li.lineCount, m.lineStartUtf16 l = (ex.li.u16 (ex.li.lineStart l)).toNat
  blocks : ∀ (i : Nat) b, ex.blocks[i]? = some b → BlockReads ex m i b
  content : ∀ (i : Nat) c, ex.content[i]? = some c → ContentReads m i c
  runs : ∀ (i : Nat) r, ex.runs[i]? = some r → RunReads ex m i r
  definitions : ∀ (i : Nat) d, ex.definitions[i]? = some d → DefinitionReads ex m i d

/-- The model gives back the records and the strings of runs. -/
def ReadsBack (ex : Extractor) (m : RenderModel) : Prop :=
  ReadsRecords ex m ∧ ∀ (i : Nat) r, ex.runs[i]? = some r → RunStringsRead ex m i r

/-- No string of a run begins with a byte order mark. -/
def NoLeadingMark (ex : Extractor) : Prop :=
  ∀ r ∈ ex.runs, ∀ ref ∈ r.stringRefs, ¬bomBytes <+: ex.stringBytes ref

/-! ## The fields of a kind -/

namespace Native

section

variable (li : LineIndex) {b : BlockRec}

/-- Whether a list is ordered is in its flags, beside those of every block. -/
theorem blockFields_flags : (blockFields li b).flags =
    if b.kind.toNat = BlockKind.list then b.flags ||| (b.attr0 &&& 1) <<< 1 else b.flags := by
  simp only [blockFields]
  split_ifs with h₁ h₂ <;> first | rfl | exact absurd (h₁.1.symm.trans h₂) (by decide)

/-- The attribute word of a list is its start number; that it is ordered is in the flags. -/
theorem blockFields_attr : (blockFields li b).attr =
    if b.kind.toNat = BlockKind.list then b.attr1 else b.attr0 := by
  simp only [blockFields]
  split_ifs with h₁ h₂ <;> first | rfl | exact absurd (h₁.1.symm.trans h₂) (by decide)

/-- A fenced block carries the two ends of its info string as extra words. -/
theorem blockFields_extra_codeBlock (hk : b.kind.toNat = BlockKind.codeBlock)
    (hfenced : b.flags &&& 1 ≠ 0) :
    (blockFields li b).extra = [li.u16 b.attr1.toNat, li.u16 b.attr2.toNat] := by
  simp [blockFields, hk, hfenced]

/-- An item carries the end of its marker and its task symbol as extra words. -/
theorem blockFields_extra_item (hk : b.kind.toNat = BlockKind.item) :
    (blockFields li b).extra =
      [b.markerEndUtf16, li.u16 b.attr1.toNat, li.u16 b.attr2.toNat] := by
  simp [blockFields, hk, BlockKind.item, BlockKind.codeBlock, BlockKind.list]

theorem blockFields_extra_table (hk : b.kind.toNat = BlockKind.table) :
    (blockFields li b).extra = [b.attr1] := by
  simp [blockFields, hk, BlockKind.item, BlockKind.codeBlock, BlockKind.list, BlockKind.table]

/-- A footnote definition carries its label as extra words. -/
theorem blockFields_extra_footnoteDefinition
    (hk : b.kind.toNat = BlockKind.footnoteDefinition) :
    (blockFields li b).extra = [li.u16 b.attr1.toNat, li.u16 b.attr2.toNat] := by
  simp [blockFields, hk, BlockKind.item, BlockKind.codeBlock, BlockKind.list, BlockKind.table,
    BlockKind.footnoteDefinition]

theorem runKindExtra_of_isLink {r : RunRec} (h : r.isLink) : runKindExtra li r =
    [li.u16 r.aux0.toNat, li.u16 r.aux1.toNat, li.u16 r.aux2.toNat, li.u16 r.aux3.toNat,
      r.destinationOffset, r.destinationLength, r.titleOffset, r.titleLength] :=
  if_pos h

theorem not_isLink_of_displaysString {r : RunRec} (h : r.displaysString) : ¬r.isLink := by
  rcases h with h | ⟨h, -⟩ <;>
    simp [RunRec.isLink, h, RunKind.replacement, RunKind.code, RunKind.link, RunKind.image,
      RunKind.autolink]

/-- A run that displays a string, and is no link, carries the place of the string. -/
theorem runKindExtra_of_displaysString {r : RunRec} (h : r.displaysString) :
    runKindExtra li r = [r.displayRef.1, r.displayRef.2] := by
  have hlink := not_isLink_of_displaysString h
  rw [RunRec.isLink] at hlink
  rw [runKindExtra, if_neg hlink, RunRec.displayRef]
  rcases h with h | h
  · rw [if_pos h, if_pos h]
  · have hne : r.kind.toNat ≠ RunKind.replacement := by
      rw [h.1]
      decide
    rw [if_neg hne, if_neg hne, if_pos h]

/-- A footnote reference carries its label. -/
theorem runKindExtra_of_footnoteRef {r : RunRec} (h : r.kind.toNat = RunKind.footnoteRef) :
    runKindExtra li r = [li.u16 r.aux0.toNat, li.u16 r.aux1.toNat] := by
  simp [runKindExtra, h, RunKind.footnoteRef, RunKind.replacement, RunKind.code, RunKind.link,
    RunKind.image, RunKind.autolink]

/-- No other block carries extra words. -/
theorem blockFields_extra_eq_nil
    (hk : ¬(b.kind.toNat = BlockKind.codeBlock ∧ b.flags &&& 1 ≠ 0) ∧
      b.kind.toNat ≠ BlockKind.item ∧ b.kind.toNat ≠ BlockKind.table ∧
      b.kind.toNat ≠ BlockKind.footnoteDefinition) : (blockFields li b).extra = [] := by
  simp only [blockFields, if_neg hk.1, if_neg hk.2.1, if_neg hk.2.2.1, if_neg hk.2.2.2]
  split <;> rfl

end

end Native

/-! ## The sections in closed form -/

namespace Native

theorem contentBefore_succ {blocks : List BlockRec} {i : Nat} {b : BlockRec}
    (hb : blocks[i]? = some b) :
    contentBefore blocks (i + 1) = contentBefore blocks i + b.contentCount.toNat := by
  rw [contentBefore, List.take_add_one, hb]
  simp [contentBefore]

/-- The pieces of content are counted block by block. -/
theorem contentBefore_mono {blocks : List BlockRec} {i j : Nat} (hij : i ≤ j) :
    contentBefore blocks i ≤ contentBefore blocks j := by
  rw [contentBefore, contentBefore, ← Nat.add_sub_cancel' hij, List.take_add, List.map_append,
    List.sum_append]
  exact Nat.le_add_right _ _

namespace WellFormed

variable {ex : Extractor} (hwf : WellFormed ex)
include hwf

/-- The pieces of a block are among those of the document. -/
theorem contentBefore_add_le {i : Nat} {b : BlockRec} (hb : ex.blocks[i]? = some b) :
    contentBefore ex.blocks i + b.contentCount.toNat ≤ ex.content.length := by
  rw [← contentBefore_succ hb, ← hwf.contentOwned]
  exact contentBefore_mono (List.getElem?_eq_some_iff.1 hb).1

/-- The records of a block are those from the count of the blocks before it on. -/
theorem blockRecords_eq {i : Nat} {b : BlockRec} (hb : ex.blocks[i]? = some b) :
    ex.blockRecords b = (ex.content.drop (contentBefore ex.blocks i)).take b.contentCount.toNat := by
  by_cases hcount : b.contentCount = 0
  · simp [Extractor.blockRecords, hcount]
  · rw [Extractor.blockRecords, hwf.contentOffset i b hb hcount]

/-- The blocks up to one hold, one behind the other, the content up to it. -/
theorem take_flatMap_blockRecords {i : Nat} (hi : i ≤ ex.blocks.length) :
    (ex.blocks.take i).flatMap ex.blockRecords = ex.content.take (contentBefore ex.blocks i) := by
  induction i with
  | zero => simp [contentBefore]
  | succ i ih =>
    obtain ⟨b, hb⟩ : ∃ b, ex.blocks[i]? = some b := ⟨_, List.getElem?_eq_getElem hi⟩
    rw [List.take_add_one, hb, List.flatMap_append, ih (by omega), contentBefore_succ hb,
      List.take_add, Option.toList_some, List.flatMap_singleton, hwf.blockRecords_eq hb]

/-- Every content record belongs to one block. -/
theorem ownedContent_eq : ex.ownedContent = ex.content := by
  have h := hwf.take_flatMap_blockRecords (Nat.le_refl _)
  rwa [hwf.contentOwned, List.take_length, List.take_length] at h

/-- What is well formed packs into its words without overflow. -/
theorem packingOverflow_eq_none : packingOverflow ex.content = none := by
  have key : ∀ l : List ContentRec, (∀ c ∈ l, c.line.toNat < 2 ^ 30 ∧
      c.virtualLeadingSpaces.toNat ≤ 3) → packingOverflow l = none := by
    intro l hl
    rw [packingOverflow]
    induction l with
    | nil => rfl
    | cons c l ih =>
      have hc := hl c List.mem_cons_self
      rw [List.foldl_cons, if_neg (by omega)]
      exact ih fun c hc => hl c (List.mem_cons_of_mem _ hc)
  exact key _ hwf.contentFields

end WellFormed

/-- The record of block `i` in the published model. -/
def publishedBlock (ex : Extractor) (i : Nat) (b : BlockRec) : List UInt32 :=
  blockWords ex.li (u32 (ex.runs.takeWhile fun rec => rec.block.toNat < i).length)
    (contentBefore ex.blocks i) (blockExtras ex.li (ex.blocks.take i)).length b

/-- The sections of the published model, given the records of its blocks. -/
def publishedSections (ex : Extractor) (records : List (List UInt32)) : Sections where
  blocks := records.flatten
  content := ex.content.flatMap contentWords
  runs := (runRecords 0 ex.runs).flatten
  index := (runIndex ex.li (blockExtras ex.li ex.blocks).length 0 ex.runs).flatMap indexWords
  extras := blockExtras ex.li ex.blocks ++ runExtras ex.li 0 ex.runs

/-- Encoding well-formed records notes no deviation and yields the sections. -/
theorem encode_eq {ex : Extractor} (hwf : WellFormed ex) :
    ∃ records : List (List UInt32), records.length = ex.blocks.length ∧
      (∀ (i : Nat) b, ex.blocks[i]? = some b → records[i]? = some (publishedBlock ex i b)) ∧
      ex.encode = some (ex, outWords ex (publishedSections ex records)) := by
  have hslots : ex.blocks.length ≤ (firstRuns ex.runs ex.blocks.length).length :=
    (List.getElem?_eq_some_iff.1 (getElem?_firstRuns (Nat.le_refl _))).1.le
  obtain ⟨packed, hpacked, hcontent, hextras, records, hblocks, hcount, hrecords⟩ :=
    @packBlocks_spec ex ex.blocks ⟨[], [], []⟩ _ hwf.contentSlice hslots
  simp only [List.nil_append, List.length_nil, Nat.zero_add] at hcontent hextras hblocks hrecords
  rw [← Extractor.ownedContent, hwf.ownedContent_eq] at hcontent
  have hfit : (blockExtras ex.li ex.blocks).length + (runExtras ex.li 0 ex.runs).length <
      2 ^ 32 := hwf.extraWords.trans (by decide)
  have hruns := @packRuns_spec ex.li ex.runs ⟨[], [], blockExtras ex.li ex.blocks⟩ 0 hfit
  have hsections : ex.packSections = some (publishedSections ex records) := by
    rw [Extractor.packSections, hpacked]
    simp [hruns, publishedSections, hblocks, hcontent, hextras]
  refine ⟨records, hcount, fun i b hb => ?_, ?_⟩
  · have hi := (List.getElem?_eq_some_iff.1 hb).1
    rw [hrecords i b _ hb (getElem?_firstRuns hi.le), hwf.take_flatMap_blockRecords hi.le,
      publishedBlock, List.length_take, Nat.mul_div_cancel _ (by decide), Nat.min_eq_left]
    exact Nat.le_of_add_right_le (hwf.contentBefore_add_le hb)
  · have hkept : (publishedSections ex records).content.length / RenderModelSchema.contentWords =
        ex.content.length := by
      rw [publishedSections, length_flatMap_width fun c _ => length_contentWords c]
      exact Nat.mul_div_cancel _ (by decide)
    rw [Extractor.encode, hsections]
    simp [Extractor.notePacking, hwf.ownedContent_eq, hwf.packingOverflow_eq_none, hkept]

end Native

/-! ## Finding a section -/

/-- The line starts. -/
def lineWords (ex : Extractor) : List UInt32 :=
  (List.range ex.li.lineCount).map fun l => ex.li.u16 (ex.li.lineStart l)

/-- The words before the section of the blocks. -/
def beforeBlocks (ex : Extractor) (records : List (List UInt32)) : List UInt32 :=
  headerWords ex (publishedSections ex records) ++ lineWords ex

/-- The words before the section of the content records. -/
def beforeContent (ex : Extractor) (records : List (List UInt32)) : List UInt32 :=
  beforeBlocks ex records ++ records.flatten

/-- The words before the section of the runs. -/
def beforeRuns (ex : Extractor) (records : List (List UInt32)) : List UInt32 :=
  beforeContent ex records ++ (ex.content.map contentWords).flatten

/-- The words before the section of the definitions. -/
def beforeDefinitions (ex : Extractor) (records : List (List UInt32)) : List UInt32 :=
  beforeRuns ex records ++ (runRecords 0 ex.runs).flatten

/-- The words before the run-extra index. -/
def beforeIndex (ex : Extractor) (records : List (List UInt32)) : List UInt32 :=
  beforeDefinitions ex records ++ (ex.definitions.map (definitionWords ex.li)).flatten

/-- The entries of the run-extra index. -/
def indexEntries (ex : Extractor) : List (Nat × Nat) :=
  runIndex ex.li (blockExtras ex.li ex.blocks).length 0 ex.runs

/-- The words before the extras. -/
def beforeExtras (ex : Extractor) (records : List (List UInt32)) : List UInt32 :=
  beforeIndex ex records ++ ((indexEntries ex).map indexWords).flatten

/-- The extras. -/
def extras (ex : Extractor) : List UInt32 :=
  blockExtras ex.li ex.blocks ++ runExtras ex.li 0 ex.runs

/-- A model of the words of well-formed records, with the records of its blocks. -/
structure Published (ex : Extractor) (records : List (List UInt32)) (m : RenderModel) :
    Prop where
  wellFormed : WellFormed ex
  bytes : m.bytes = toBytes m.words
  words : m.words = outWords ex (publishedSections ex records)
  count : records.length = ex.blocks.length
  records : ∀ (i : Nat) b, ex.blocks[i]? = some b → records[i]? = some (publishedBlock ex i b)

/-- A word of a section that stands behind others is read at the length of those. -/
theorem RenderModel.word_section {m : RenderModel} {pre sec : List UInt32} {k : Nat}
    (h : pre ++ sec <+: m.words) (hk : k < sec.length) :
    m.word (pre.length + k) = (sec.getD k 0).toNat := by
  obtain ⟨post, h⟩ := h
  rw [RenderModel.word, ← h, List.getD_eq_getElem?_getD, List.append_assoc,
    List.getElem?_append_right (Nat.le_add_right _ _), Nat.add_sub_cancel_left,
    List.getElem?_append_left hk, ← List.getD_eq_getElem?_getD]

/-- The word `k` of record `i` of a section whose records have the width `w`. -/
theorem RenderModel.word_record {m : RenderModel} {pre record : List UInt32}
    {records : List (List UInt32)} {w i k : Nat} (h : pre ++ records.flatten <+: m.words)
    (hw : ∀ r ∈ records, r.length = w) (hrecord : records[i]? = some record) (hk : k < w) :
    m.word (pre.length + i * w + k) = (record.getD k 0).toNat := by
  have hflat := getElem?_flatten_width hw hrecord hk
  have hlen : i * w + k < records.flatten.length := by
    rw [length_flatten_width hw]
    have := Nat.mul_le_mul_right w (List.getElem?_eq_some_iff.1 hrecord).1
    rw [Nat.succ_mul] at this
    omega
  rw [Nat.add_assoc, word_section h hlen, List.getD_eq_getElem?_getD, hflat,
    ← List.getD_eq_getElem?_getD]

/-- Every run is published in four words. -/
theorem length_of_mem_runRecords {runs : List RunRec} {record : List UInt32}
    (h : record ∈ runRecords 0 runs) :
    record.length = 4 := by
  obtain ⟨i, hi⟩ := List.mem_iff_getElem?.1 h
  have hlt : i < runs.length := by
    rw [← length_runRecords 0]
    exact (List.getElem?_eq_some_iff.1 hi).1
  rw [getElem?_runRecords (List.getElem?_eq_getElem hlt)] at hi
  rw [← Option.some.inj hi]
  exact length_runWords _ _

theorem u32_toNat {n : Nat} (h : n < 2 ^ 32) : (u32 n).toNat = n := by
  rw [UInt32.toNat_ofNat', Nat.mod_eq_of_lt h]

namespace Published

variable {ex : Extractor} {records : List (List UInt32)} {m : RenderModel}
  (hm : Published ex records m)
include hm

/-- The header is read back word by word. -/
theorem word_header {k : Nat} (hk : k < 12) :
    m.word k = ((headerWords ex (publishedSections ex records)).getD k 0).toNat := by
  have h := @RenderModel.word_section m [] (headerWords ex (publishedSections ex records)) k
    (by
      rw [hm.words, outWords]
      simp only [List.append_assoc, List.nil_append]
      exact List.prefix_append _ _) hk
  rwa [List.length_nil, Nat.zero_add] at h

theorem sourceBytes : m.sourceBytes = ex.src.length :=
  (hm.word_header (by decide)).trans (u32_toNat hm.wellFormed.srcLength)

theorem sourceUtf16 : m.sourceUtf16 = (ex.li.u16 ex.src.length).toNat :=
  hm.word_header (by decide)

theorem lineCount : m.lineCount = ex.li.lineCount :=
  (hm.word_header (by decide)).trans (u32_toNat hm.wellFormed.lineCount)

theorem blockCount : m.blockCount = ex.blocks.length :=
  (hm.word_header (by decide)).trans (u32_toNat hm.wellFormed.blockCount)

/-- As many pieces of content as there are words for. -/
theorem contentCount : m.contentCount = ex.content.length := by
  have hlen : (publishedSections ex records).content.length / RenderModelSchema.contentWords =
      ex.content.length := by
    rw [publishedSections, length_flatMap_width fun c _ => length_contentWords c]
    exact Nat.mul_div_cancel _ (by decide)
  have h : m.contentCount = (u32 ((publishedSections ex records).content.length /
      RenderModelSchema.contentWords)).toNat := hm.word_header (by decide)
  rw [h, hlen, u32_toNat hm.wellFormed.contentCount]

theorem runCount : m.runCount = ex.runs.length :=
  (hm.word_header (by decide)).trans (u32_toNat hm.wellFormed.runCount)

theorem definitionCount : m.definitionCount = ex.definitions.length :=
  (hm.word_header (by decide)).trans (u32_toNat hm.wellFormed.definitionCount)

/-- The run-extra index in entries. -/
theorem runExtraCount : m.runExtraCount =
    (runIndex ex.li (blockExtras ex.li ex.blocks).length 0 ex.runs).length := by
  have hlen : (publishedSections ex records).index.length / RenderModelSchema.runExtraWords =
      (runIndex ex.li (blockExtras ex.li ex.blocks).length 0 ex.runs).length := by
    rw [publishedSections, length_flatMap_width fun e _ => length_indexWords e]
    exact Nat.mul_div_cancel _ (by decide)
  have h : m.runExtraCount = (u32 ((publishedSections ex records).index.length /
      RenderModelSchema.runExtraWords)).toNat := hm.word_header (by decide)
  rw [h, hlen, u32_toNat]
  exact (length_runIndex_le _ _ _ _).trans_lt hm.wellFormed.runCount

/-- The extra words of the blocks stand before those of the runs. -/
theorem extraWords : m.extraWords =
    (blockExtras ex.li ex.blocks).length + (runExtras ex.li 0 ex.runs).length := by
  have h : m.extraWords = (u32 (publishedSections ex records).extras.length).toNat :=
    hm.word_header (by decide)
  have := hm.wellFormed.extraWords
  rw [h, publishedSections, List.length_append, u32_toNat (by omega)]

theorem stringBytes : m.stringBytes = ex.strings.length :=
  (hm.word_header (by decide)).trans (u32_toNat hm.wellFormed.stringBytes)

/-! ### Where the sections begin -/

/-- Every block is published in ten words. -/
theorem length_record {record : List UInt32} (h : record ∈ records) : record.length = 10 := by
  obtain ⟨i, hi⟩ := List.mem_iff_getElem?.1 h
  have hlt : i < ex.blocks.length := by
    rw [← hm.count]
    exact (List.getElem?_eq_some_iff.1 hi).1
  rw [hm.records i _ (List.getElem?_eq_getElem hlt)] at hi
  rw [← Option.some.inj hi]
  exact length_blockWords _ _ _ _ _

/-- The words are those before the extras, the extras and the bytes of the strings. -/
theorem words_eq : m.words = beforeExtras ex records ++ extras ex ++ stringWords ex.strings := by
  rw [hm.words, outWords]
  simp only [publishedSections, beforeExtras, beforeIndex, beforeDefinitions, beforeRuns,
    beforeContent, beforeBlocks, lineWords, indexEntries, extras, List.flatMap_def,
    List.append_assoc]

theorem blocksOff : m.blocksOff = (beforeBlocks ex records).length := by
  rw [RenderModel.blocksOff, hm.lineCount, beforeBlocks, List.length_append, lineWords,
    List.length_map, List.length_range, RenderModelSchema.lineWords, Nat.mul_one]
  rfl

theorem contentOff : m.contentOff = (beforeContent ex records).length := by
  rw [RenderModel.contentOff, hm.blocksOff, hm.blockCount, beforeContent, List.length_append,
    length_flatten_width fun r hr => hm.length_record hr, hm.count]
  rfl

theorem runsOff : m.runsOff = (beforeRuns ex records).length := by
  rw [RenderModel.runsOff, hm.contentOff, hm.contentCount, beforeRuns, List.length_append,
    ← List.flatMap_def, length_flatMap_width fun c _ => length_contentWords c]
  rfl

theorem defsOff : m.defsOff = (beforeDefinitions ex records).length := by
  rw [RenderModel.defsOff, hm.runsOff, hm.runCount, beforeDefinitions, List.length_append,
    length_flatten_width fun r hr => length_of_mem_runRecords hr, length_runRecords]
  rfl

theorem runExtrasOff : m.runExtrasOff = (beforeIndex ex records).length := by
  rw [RenderModel.runExtrasOff, hm.defsOff, hm.definitionCount, beforeIndex,
    List.length_append, ← List.flatMap_def, length_flatMap_width (w := 6) fun _ _ => rfl]
  rfl

theorem extrasOff : m.extrasOff = (beforeExtras ex records).length := by
  rw [RenderModel.extrasOff, hm.runExtrasOff, hm.runExtraCount, beforeExtras,
    List.length_append, ← List.flatMap_def, length_flatMap_width fun e _ => length_indexWords e]
  rfl

/-! ### What a section holds -/

theorem prefix_beforeRuns : beforeRuns ex records <+: m.words := by
  rw [hm.words_eq, beforeExtras, beforeIndex, beforeDefinitions]
  simp only [List.append_assoc]
  exact List.prefix_append _ _

theorem prefix_beforeExtras : beforeExtras ex records <+: m.words := by
  rw [hm.words_eq, List.append_assoc]
  exact List.prefix_append _ _

theorem prefix_beforeIndex : beforeIndex ex records <+: m.words :=
  (List.prefix_append _ _).trans hm.prefix_beforeExtras

/-- A line's start is read back in code units. -/
theorem lineStart_eq {l : Nat} (hl : l < ex.li.lineCount) :
    m.lineStartUtf16 l = (ex.li.u16 (ex.li.lineStart l)).toNat := by
  have h := @RenderModel.word_section m (headerWords ex (publishedSections ex records))
    (lineWords ex) l
    (((List.prefix_append _ _).trans (List.prefix_append _ _)).trans hm.prefix_beforeRuns)
    (by simpa [lineWords])
  rw [RenderModel.lineStartUtf16, RenderModel.linesOff, RenderModelSchema.lineWords, Nat.mul_one]
  refine h.trans ?_
  simp [lineWords, hl]

/-- A word of a block's record is the one published for it. -/
theorem block_eq {i k : Nat} {b : BlockRec} (hb : ex.blocks[i]? = some b) (hk : k < 10) :
    m.block i k = ((publishedBlock ex i b).getD k 0).toNat := by
  rw [RenderModel.block, hm.blocksOff]
  exact RenderModel.word_record ((List.prefix_append _ _).trans hm.prefix_beforeRuns)
    (fun r hr => hm.length_record hr) (hm.records i b hb) hk

/-- A word of a piece of content is the one published for it. -/
theorem content_eq {i k : Nat} {c : ContentRec} (hc : ex.content[i]? = some c) (hk : k < 4) :
    m.content i k = ((contentWords c).getD k 0).toNat := by
  rw [RenderModel.content, hm.contentOff]
  exact RenderModel.word_record hm.prefix_beforeRuns
    (List.forall_mem_map.2 fun c _ => length_contentWords c)
    (by rw [List.getElem?_map, hc, Option.map_some]) hk

/-- A word of a run's record is the one published for it. -/
theorem run_eq {i k : Nat} {r : RunRec} (hr : ex.runs[i]? = some r) (hk : k < 4) :
    m.run i k = ((runWords i r).getD k 0).toNat := by
  rw [RenderModel.run, hm.runsOff]
  refine RenderModel.word_record ((List.prefix_append _ _).trans hm.prefix_beforeIndex)
    (fun r hr => length_of_mem_runRecords hr) ?_ hk
  rw [getElem?_runRecords hr, Nat.zero_add]

/-- A word of a definition is the one published for it. -/
theorem definition_eq {i k : Nat} {d : Definition} (hd : ex.definitions[i]? = some d)
    (hk : k < 6) : m.definition i k = ((definitionWords ex.li d).getD k 0).toNat := by
  rw [RenderModel.definition, hm.defsOff]
  exact RenderModel.word_record hm.prefix_beforeIndex (List.forall_mem_map.2 fun _ _ => rfl)
    (by rw [List.getElem?_map, hd, Option.map_some]) hk

/-- A word of the index of the runs' extras is the one published for it. -/
theorem index_eq {i k : Nat} {e : Nat × Nat} (he : (indexEntries ex)[i]? = some e)
    (hk : k < 2) :
    m.word (m.runExtrasOff + i * RenderModelSchema.runExtraWords + k) =
      ((indexWords e).getD k 0).toNat := by
  rw [hm.runExtrasOff]
  exact RenderModel.word_record hm.prefix_beforeExtras
    (List.forall_mem_map.2 fun e _ => length_indexWords e)
    (by rw [List.getElem?_map, he, Option.map_some]) hk

/-- An extra word is the one published at its place. -/
theorem extra_eq {k : Nat} (hk : k < (extras ex).length) :
    m.extra k = ((extras ex).getD k 0).toNat := by
  rw [RenderModel.extra, hm.extrasOff]
  refine RenderModel.word_section ?_ hk
  rw [hm.words_eq]
  exact List.prefix_append _ _

/-! ### Blocks -/

/-- Where the content records of block `i` begin. -/
theorem blockContentOffset_eq {i : Nat} {b : BlockRec} (hb : ex.blocks[i]? = some b) :
    m.blockContentOffset i = contentBefore ex.blocks i := by
  have h := hm.wellFormed.contentBefore_add_le hb
  have hcount := hm.wellFormed.contentCount
  exact (hm.block_eq hb (by decide)).trans (u32_toNat (by omega))

/-- A block's pieces are counted by where the next block's begin. -/
theorem blockContentCount_eq {i : Nat} {b : BlockRec} (hb : ex.blocks[i]? = some b) :
    m.blockContentCount i = b.contentCount.toNat := by
  have hoffset := hm.blockContentOffset_eq hb
  have hsucc := contentBefore_succ hb
  have hend : (if i + 1 < m.blockCount then m.block (i + 1) 6 else m.contentCount) =
      contentBefore ex.blocks (i + 1) := by
    split
    · next hlt =>
      rw [hm.blockCount] at hlt
      exact hm.blockContentOffset_eq (List.getElem?_eq_getElem hlt)
    · next hge =>
      have hlt := (List.getElem?_eq_some_iff.1 hb).1
      rw [hm.blockCount] at hge
      rw [hm.contentCount, ← hm.wellFormed.contentOwned, show ex.blocks.length = i + 1 by omega]
  rw [RenderModel.blockContentCount, hend]
  rw [RenderModel.blockContentOffset] at hoffset
  omega

/-- The first run of block `i`, also past the last block. -/
theorem firstRunOfBlock_eq {i : Nat} (hi : i ≤ ex.blocks.length) :
    m.firstRunOfBlock i = (ex.runs.takeWhile fun rec => rec.block.toNat < i).length := by
  rw [RenderModel.firstRunOfBlock, hm.blockCount]
  split
  · next hlt =>
    refine (hm.block_eq (List.getElem?_eq_getElem hlt) (by decide)).trans (u32_toNat ?_)
    exact (List.takeWhile_sublist _).length_le.trans_lt hm.wellFormed.runCount
  · next hge =>
    have hall : (ex.runs.takeWhile fun rec => rec.block.toNat < i) = ex.runs := by
      refine List.takeWhile_eq_self_iff.2 fun r hr => ?_
      have := hm.wellFormed.runBlock r hr
      rw [decide_eq_true_eq]
      omega
    rw [hm.runCount, hall]

/-- The words that a block adds to the extras. -/
theorem blockExtra_eq {i k : Nat} {b : BlockRec} {words : List UInt32}
    (hb : ex.blocks[i]? = some b) (hwords : (blockFields ex.li b).extra = words)
    (hk : k < words.length) : m.blockExtra i k = (words.getD k 0).toNat := by
  subst hwords
  have hfit := hm.wellFormed.extraWords
  have hle : (blockExtras ex.li (ex.blocks.take i)).length ≤
      (blockExtras ex.li ex.blocks).length := by
    conv_rhs => rw [← List.take_append_drop i ex.blocks, blockExtras, List.flatMap_append,
      List.length_append]
    exact Nat.le_add_right _ _
  have hget := flatMap_getElem? (f := fun b => (blockFields ex.li b).extra) hb hk
  have hlt : (blockExtras ex.li (ex.blocks.take i)).length + k <
      (blockExtras ex.li ex.blocks).length := by
    by_contra hge
    rw [← blockExtras, ← blockExtras, List.getElem?_eq_none (Nat.le_of_not_lt hge), eq_comm,
      List.getElem?_eq_none_iff] at hget
    omega
  have hoffset : m.block i 9 = (blockExtras ex.li (ex.blocks.take i)).length := by
    have hne : (blockFields ex.li b).extra.isEmpty = false := by
      rw [List.isEmpty_eq_false_iff, ← List.length_pos_iff]
      omega
    refine (hm.block_eq hb (by decide)).trans ?_
    show (if (blockFields ex.li b).extra.isEmpty then u32 RenderModelSchema.noExtra else
      u32 (blockExtras ex.li (ex.blocks.take i)).length).toNat = _
    rw [hne, if_neg Bool.false_ne_true, u32_toNat (by omega)]
  rw [RenderModel.blockExtra, hoffset]
  rw [if_neg (by rw [RenderModelSchema.noExtra]; omega), hm.extra_eq (by
      rw [extras, List.length_append]
      omega), List.getD_eq_getElem?_getD, extras, List.getElem?_append_left hlt,
    List.getD_eq_getElem?_getD, ← hget, blockExtras, blockExtras]

/-- Of a block without extras, the accessors read zero. -/
theorem blockExtra_eq_zero {i k : Nat} {b : BlockRec} (hb : ex.blocks[i]? = some b)
    (hextra : (blockFields ex.li b).extra = []) : m.blockExtra i k = 0 := by
  have hoffset : m.block i 9 = RenderModelSchema.noExtra := by
    refine (hm.block_eq hb (by decide)).trans ?_
    show (if (blockFields ex.li b).extra.isEmpty then u32 RenderModelSchema.noExtra else
      u32 (blockExtras ex.li (ex.blocks.take i)).length).toNat = _
    rw [hextra]
    rfl
  rw [RenderModel.blockExtra, hoffset]
  exact if_pos rfl

/-- The published flags of a block fit their field. -/
theorem blockFlags_lt {b : BlockRec} (hb : b ∈ ex.blocks) :
    (blockFields ex.li b).flags.toNat < 2 ^ 24 := by
  have h := (hm.wellFormed.blockFields b hb).2
  have hlist : (b.flags ||| (b.attr0 &&& 1) <<< 1).toNat < 2 ^ 24 := by
    rw [UInt32.toNat_or]
    refine Nat.or_lt_two_pow h ?_
    have hone : (b.attr0 &&& 1).toNat ≤ 1 := by
      rw [UInt32.toNat_and]
      exact Nat.and_le_right
    rw [UInt32.toNat_shiftLeft]
    show (b.attr0 &&& 1).toNat <<< 1 % 2 ^ 32 < 2 ^ 24
    omega
  unfold blockFields
  dsimp only
  split_ifs <;> assumption

/-- A block reads back field by field, its extras by its kind. -/
theorem blockReads {i : Nat} {b : BlockRec} (hb : ex.blocks[i]? = some b) :
    BlockReads ex m i b := by
  have hlt := (List.getElem?_eq_some_iff.1 hb).1
  have hmem := List.mem_of_getElem? hb
  have hkind := (hm.wellFormed.blockFields b hmem).1
  have hflags := hm.blockFlags_lt hmem
  -- The first word holds the kind in its low byte and the flags above it.
  have hpacked : m.block i 0 = b.kind.toNat + (blockFields ex.li b).flags.toNat * 2 ^ 8 :=
    (hm.block_eq hb (by decide)).trans
      (toNat_or_shiftLeft (s := 8) (by decide) hkind (by
        show (blockFields ex.li b).flags.toNat * 2 ^ 8 < 2 ^ 32
        omega))
  have hkindEq : m.blockKind i = b.kind.toNat := by
    rw [RenderModel.blockKind, hpacked]
    exact add_mul_two_pow_and hkind
  have hflagsEq : m.blockFlags i = (blockFields ex.li b).flags.toNat := by
    rw [RenderModel.blockFlags, hpacked, add_mul_two_pow_shiftRight hkind]
    exact (Nat.and_two_pow_sub_one_eq_mod _ 24).trans (Nat.mod_eq_of_lt hflags)
  refine {
    kind := hkindEq
    flags := ?_
    attr := ?_
    parent := hm.block_eq hb (by decide)
    start := hm.block_eq hb (by decide)
    stop := hm.block_eq hb (by decide)
    firstLine := hm.block_eq hb (by decide)
    lineCount := hm.block_eq hb (by decide)
    contentCount := hm.blockContentCount_eq hb
    contentOffset := fun hne =>
      (hm.blockContentOffset_eq hb).trans (hm.wellFormed.contentOffset i b hb hne).symm
    runs := fun j r hr => ?_
    codeInfo := fun hk => ?_
    item := fun hk => ?_
    alignments := fun hk => ?_
    footnoteLabel := fun hk => ?_ }
  · rw [hflagsEq, blockFields_flags]
    split <;> rfl
  · exact (hm.block_eq hb (by decide)).trans (by
      show (blockFields ex.li b).attr.toNat = _
      rw [blockFields_attr]
      split <;> rfl)
  · rw [hm.firstRunOfBlock_eq hlt.le, hm.firstRunOfBlock_eq hlt,
      lt_length_takeWhile_iff hm.wellFormed.runOrder hr, ← Nat.not_lt,
      lt_length_takeWhile_iff hm.wellFormed.runOrder hr]
    omega
  -- Only a fenced code block has an info string; that of an indented one reads as zeros, as it has
  -- no extras.
  · by_cases hfenced : b.flags &&& 1 ≠ 0
    · have hextra := blockFields_extra_codeBlock ex.li hk hfenced
      rw [if_pos hfenced, RenderModel.codeInfoStart, RenderModel.codeInfoEnd,
        hm.blockExtra_eq hb hextra (by simp), hm.blockExtra_eq hb hextra (by simp)]
      rfl
    · have hextra := blockFields_extra_eq_nil ex.li (b := b)
        (by simp [hk, hfenced, BlockKind.codeBlock, BlockKind.item, BlockKind.table,
          BlockKind.footnoteDefinition])
      rw [if_neg hfenced, RenderModel.codeInfoStart, RenderModel.codeInfoEnd,
        hm.blockExtra_eq_zero hb hextra, hm.blockExtra_eq_zero hb hextra]
  · have hextra := blockFields_extra_item ex.li hk
    exact ⟨hm.blockExtra_eq hb hextra (by simp), hm.blockExtra_eq hb hextra (by simp),
      hm.blockExtra_eq hb hextra (by simp)⟩
  · exact hm.blockExtra_eq hb (blockFields_extra_table ex.li hk) (by simp)
  · have hextra := blockFields_extra_footnoteDefinition ex.li hk
    exact ⟨hm.blockExtra_eq hb hextra (by simp), hm.blockExtra_eq hb hextra (by simp)⟩

/-! ### Content records and definitions -/

/-- A piece of content reads back field by field. -/
theorem contentReads {i : Nat} {c : ContentRec} (hc : ex.content[i]? = some c) :
    ContentReads m i c := by
  obtain ⟨hline, hvirtual⟩ := hm.wellFormed.contentFields c (List.mem_of_getElem? hc)
  have hpacked : m.content i 3 = c.line.toNat + c.virtualLeadingSpaces.toNat * 2 ^ 30 :=
    (hm.content_eq hc (by decide)).trans
      (toNat_or_shiftLeft (s := 30) (by decide) hline (by
        show c.virtualLeadingSpaces.toNat * 2 ^ 30 < 2 ^ 32
        omega))
  refine {
    line := ?_
    virtualSpaces := ?_
    start := hm.content_eq hc (by decide)
    stop := hm.content_eq hc (by decide)
    prefixStart := hm.content_eq hc (by decide) }
  · rw [RenderModel.contentLine, hpacked]
    exact add_mul_two_pow_and hline
  · rw [RenderModel.contentVirtualSpaces, hpacked, add_mul_two_pow_shiftRight hline]
    exact (Nat.and_two_pow_sub_one_eq_mod _ 2).trans (Nat.mod_eq_of_lt (by omega))

/-- A definition reads back field by field. -/
theorem definitionReads {i : Nat} {d : Definition} (hd : ex.definitions[i]? = some d) :
    DefinitionReads ex m i d where
  start := hm.definition_eq hd (by decide)
  stop := hm.definition_eq hd (by decide)
  labelStart := hm.definition_eq hd (by decide)
  labelEnd := hm.definition_eq hd (by decide)
  destinationStart := hm.definition_eq hd (by decide)
  destinationEnd := hm.definition_eq hd (by decide)

/-! ### The extras of a run -/

/-- Where the extras of run `i` begin. -/
def runExtraOffset (ex : Extractor) (i : Nat) : Nat :=
  (blockExtras ex.li ex.blocks).length + (runExtras ex.li 0 (ex.runs.take i)).length

/-- The entries of the index fit their words. -/
theorem indexEntry_lt {j : Nat} {e : Nat × Nat} (he : (indexEntries ex)[j]? = some e) :
    e.1 < 2 ^ 32 ∧ e.2 < 2 ^ 32 := by
  obtain ⟨k, r, hr, h₁, -, h₂⟩ := mem_runIndex.1 (List.mem_of_getElem? he)
  have hk := (List.getElem?_eq_some_iff.1 hr).1
  have hcount := hm.wellFormed.runCount
  have hfit := hm.wellFormed.extraWords
  have hle := length_runExtras_take_le ex.li ex.runs k 0
  omega

/-- The run-extra index is read in order. -/
theorem runExtraRun_eq {j : Nat} {e : Nat × Nat} (he : (indexEntries ex)[j]? = some e) :
    m.runExtraRun j = e.1 :=
  (hm.index_eq (k := 0) he (by decide)).trans (u32_toNat (hm.indexEntry_lt he).1)

/-- The index goes up in its runs, so that it can be searched. -/
theorem runExtraRun_strictMono (j k : Nat) (hjk : j < k) (hk : k < m.runExtraCount) :
    m.runExtraRun j < m.runExtraRun k := by
  rw [hm.runExtraCount] at hk
  have hj : j < (indexEntries ex).length := hjk.trans hk
  rw [hm.runExtraRun_eq (List.getElem?_eq_getElem hj),
    hm.runExtraRun_eq (List.getElem?_eq_getElem hk)]
  exact List.pairwise_iff_getElem.1 (pairwise_runIndex _ _ _ _) j k hj hk hjk

/-- The search of the index finds the extras of every run that has any. -/
theorem runExtra_eq {i : Nat} {r : RunRec} (hr : ex.runs[i]? = some r)
    (hne : Native.runExtra ex.li i r ≠ []) : m.runExtra i = some (runExtraOffset ex i) := by
  have hmem : (i, runExtraOffset ex i) ∈ indexEntries ex := by
    refine mem_runIndex.2 ⟨i, r, hr, (Nat.zero_add i).symm, ?_, rfl⟩
    rwa [Nat.zero_add]
  obtain ⟨j, hj⟩ := List.mem_iff_getElem?.1 hmem
  have hlt : j < m.runExtraCount := by
    rw [hm.runExtraCount]
    exact (List.getElem?_eq_some_iff.1 hj).1
  have hfound := bisectFirst_eq hm.runExtraRun_strictMono hlt (hm.runExtraRun_eq hj)
  rw [RenderModel.runExtra]
  rw [hfound, if_pos ⟨hlt, hm.runExtraRun_eq hj⟩, hm.index_eq hj (by decide)]
  exact congrArg some (u32_toNat (hm.indexEntry_lt hj).2)

/-- The words that run `i` adds to the extras. -/
theorem extra_run_eq {i k : Nat} {r : RunRec} (hr : ex.runs[i]? = some r)
    (hk : k < (Native.runExtra ex.li i r).length) :
    m.extra (runExtraOffset ex i + k) = ((Native.runExtra ex.li i r).getD k 0).toNat := by
  have hget := getElem?_runExtras ex.li (i := 0) hr (by rwa [Nat.zero_add])
  rw [Nat.zero_add] at hget
  have hlt : (runExtras ex.li 0 (ex.runs.take i)).length + k <
      (runExtras ex.li 0 ex.runs).length := by
    by_contra hge
    rw [List.getElem?_eq_none (Nat.le_of_not_lt hge), eq_comm, List.getElem?_eq_none_iff] at hget
    omega
  rw [runExtraOffset, Nat.add_assoc, hm.extra_eq (by
      rw [extras, List.length_append]
      omega), List.getD_eq_getElem?_getD, extras,
    List.getElem?_append_right (Nat.le_add_right _ _), Nat.add_sub_cancel_left, hget,
    ← List.getD_eq_getElem?_getD]

/-! ### Runs -/

/-- The word of the hidden widths. -/
theorem run_hidden {i : Nat} {r : RunRec} (hr : ex.runs[i]? = some r) :
    m.run i 2 = if isWide i r then RenderModel.wideHidden else
      (r.contentStartUtf16 - r.startUtf16).toNat +
        (r.endUtf16 - r.contentEndUtf16).toNat * 2 ^ 16 := by
  refine (hm.run_eq hr (by decide)).trans ?_
  simp only [runWords, List.getD_cons_succ, List.getD_cons_zero]
  split
  · decide
  · next h =>
    obtain ⟨hbefore, hafter, -⟩ := narrow_lt (Bool.eq_false_iff.2 h)
    exact toNat_or_shiftLeft (s := 16) (by decide) (by
      show (r.contentStartUtf16 - r.startUtf16).toNat < 2 ^ 16
      omega) (by
      show (r.endUtf16 - r.contentEndUtf16).toNat * 2 ^ 16 < 2 ^ 32
      omega)

/-- A run is marked as wide where its hidden syntax or its parent's distance does not fit. -/
theorem run_hidden_eq_wide {i : Nat} {r : RunRec} (hr : ex.runs[i]? = some r) :
    m.run i 2 = RenderModel.wideHidden ↔ isWide i r = true := by
  rw [hm.run_hidden hr]
  split
  · next h => simp [h]
  · next h =>
    obtain ⟨hbefore, hafter, -⟩ := narrow_lt (Bool.eq_false_iff.2 h)
    rw [RenderModel.wideHidden]
    refine iff_of_false ?_ h
    omega

/-- The word of kind, flags and parent distance. -/
theorem run_packed {i : Nat} {r : RunRec} (hr : ex.runs[i]? = some r) :
    m.run i 3 = r.kind.toNat + (Native.runFlags i r).toNat * 2 ^ 8 +
      (if isWide i r then 0xFFFF else (parentDistance i r).toNat) * 2 ^ 16 := by
  have hkind := hm.wellFormed.runKind r (List.mem_of_getElem? hr)
  have hflags := runFlags_lt i r
  have hdistance : (if isWide i r then wide else parentDistance i r).toNat < 2 ^ 16 ∧
      (if isWide i r then wide else parentDistance i r).toNat =
        if isWide i r then 0xFFFF else (parentDistance i r).toNat := by
    split
    · exact ⟨by decide, rfl⟩
    · next h => exact ⟨(narrow_lt (Bool.eq_false_iff.2 h)).2.2.trans (by decide), rfl⟩
  have hlow : (r.kind ||| Native.runFlags i r <<< 8).toNat =
      r.kind.toNat + (Native.runFlags i r).toNat * 2 ^ 8 :=
    toNat_or_shiftLeft (s := 8) (by decide) hkind (by
      show (Native.runFlags i r).toNat * 2 ^ 8 < 2 ^ 32
      omega)
  rw [← hdistance.2, ← hlow]
  refine (hm.run_eq hr (by decide)).trans (toNat_or_shiftLeft (s := 16) (by decide) ?_ ?_)
  · rw [hlow]
    show _ < 2 ^ 16
    omega
  · show _ * 2 ^ 16 < 2 ^ 32
    omega

theorem runKind_eq {i : Nat} {r : RunRec} (hr : ex.runs[i]? = some r) :
    m.runKind i = r.kind.toNat := by
  have hkind := hm.wellFormed.runKind r (List.mem_of_getElem? hr)
  rw [RenderModel.runKind, hm.run_packed hr, Nat.shiftRight_zero,
    Nat.and_two_pow_sub_one_eq_mod _ 8]
  omega

theorem runFlags_eq {i : Nat} {r : RunRec} (hr : ex.runs[i]? = some r) :
    m.runFlags i = (Native.runFlags i r).toNat := by
  have hkind := hm.wellFormed.runKind r (List.mem_of_getElem? hr)
  have hflags := runFlags_lt i r
  rw [RenderModel.runFlags, hm.run_packed hr, Nat.and_two_pow_sub_one_eq_mod _ 8,
    Nat.shiftRight_eq_div_pow]
  omega

/-- The distance field. -/
theorem run_distance {i : Nat} {r : RunRec} (hr : ex.runs[i]? = some r) :
    m.run i 3 >>> 16 &&& 0xFFFF =
      if isWide i r then 0xFFFF else (parentDistance i r).toNat := by
  have hkind := hm.wellFormed.runKind r (List.mem_of_getElem? hr)
  have hflags := runFlags_lt i r
  have hlow : r.kind.toNat + (Native.runFlags i r).toNat * 2 ^ 8 < 2 ^ 16 := by omega
  have hdistance : (if isWide i r then 0xFFFF else (parentDistance i r).toNat) < 2 ^ 16 := by
    split
    · decide
    · next h => exact (narrow_lt (Bool.eq_false_iff.2 h)).2.2.trans (by decide)
  rw [hm.run_packed hr, add_mul_two_pow_shiftRight hlow, Nat.and_two_pow_sub_one_eq_mod _ 16,
    Nat.mod_eq_of_lt hdistance]

/-- The wide fields. -/
theorem runWideField_eq {i k : Nat} {r : RunRec} (hr : ex.runs[i]? = some r)
    (hwide : isWide i r = true) (hk : k < 3) : m.runWideField i k =
      ([r.contentStartUtf16, r.contentEndUtf16, r.parent].getD k 0).toNat := by
  have hextra : Native.runExtra ex.li i r =
      [r.contentStartUtf16, r.contentEndUtf16, r.parent] ++ Native.runKindExtra ex.li r := by
    rw [Native.runExtra, if_pos hwide]
  have hne : Native.runExtra ex.li i r ≠ [] := by simp [hextra]
  rw [RenderModel.runWideField, hm.runExtra_eq hr hne]
  dsimp only
  rw [hm.extra_run_eq hr (by rw [hextra, List.length_append]; exact Nat.lt_add_right _ hk), hextra,
    List.getD_eq_getElem?_getD, List.getElem?_append_left hk, ← List.getD_eq_getElem?_getD]

/-- The fields of the kind of a run. -/
theorem runExtraField_eq {i k : Nat} {r : RunRec} {words : List UInt32}
    (hr : ex.runs[i]? = some r) (hwords : Native.runKindExtra ex.li r = words)
    (hk : k < words.length) : m.runExtraField i k = (words.getD k 0).toNat := by
  subst hwords
  have hne : Native.runExtra ex.li i r ≠ [] := by
    intro hnil
    have := congrArg List.length hnil
    rw [Native.runExtra, List.length_append, List.length_nil] at this
    omega
  have hwide := hm.run_hidden_eq_wide hr
  have hlen : (Native.runExtra ex.li i r).length =
      (if isWide i r then 3 else 0) + (Native.runKindExtra ex.li r).length := by
    rw [Native.runExtra, List.length_append]
    split <;> rfl
  have hget : (Native.runExtra ex.li i r)[(if isWide i r then 3 else 0) + k]? =
      (Native.runKindExtra ex.li r)[k]? := by
    rw [Native.runExtra]
    split
    · rw [List.getElem?_append_right (by simp)]
      simp
    · simp
  rw [RenderModel.runExtraField, RenderModel.runKindExtra, hm.runExtra_eq hr hne, Option.map_some]
  dsimp only
  have hoffset : (if m.run i 2 = RenderModel.wideHidden then runExtraOffset ex i + 3 else
      runExtraOffset ex i) = runExtraOffset ex i + if isWide i r then 3 else 0 := by
    simp only [hwide]
    split <;> rfl
  rw [hoffset, Nat.add_assoc, hm.extra_run_eq hr (by omega), List.getD_eq_getElem?_getD, hget,
    ← List.getD_eq_getElem?_getD]

/-- The start of a run's content is read back, packed or wide. -/
theorem runContentStart_eq {i : Nat} {r : RunRec} (hr : ex.runs[i]? = some r) :
    m.runContentStart i = r.contentStartUtf16.toNat := by
  obtain ⟨hstart, -, -⟩ := hm.wellFormed.runRange r (List.mem_of_getElem? hr)
  have hs : m.run i 0 = r.startUtf16.toNat := hm.run_eq hr (by decide)
  rw [RenderModel.runContentStart]
  simp only [hm.run_hidden_eq_wide hr]
  split
  · next hwide => exact hm.runWideField_eq hr hwide (by decide)
  · next hwide =>
    have hbefore := (narrow_lt (Bool.eq_false_iff.2 hwide)).1
    rw [hs, hm.run_hidden hr, if_neg hwide, Nat.shiftRight_zero,
      Nat.and_two_pow_sub_one_eq_mod _ 16, Nat.add_mul_mod_self_right,
      Nat.mod_eq_of_lt (hbefore.trans (by decide)), UInt32.toNat_sub_of_le _ _ hstart]
    exact Nat.add_sub_cancel' (UInt32.le_iff_toNat_le.1 hstart)

/-- The end of a run's content is read back, packed or wide. -/
theorem runContentEnd_eq {i : Nat} {r : RunRec} (hr : ex.runs[i]? = some r) :
    m.runContentEnd i = r.contentEndUtf16.toNat := by
  obtain ⟨-, -, hend⟩ := hm.wellFormed.runRange r (List.mem_of_getElem? hr)
  have he : m.run i 1 = r.endUtf16.toNat := hm.run_eq hr (by decide)
  rw [RenderModel.runContentEnd]
  simp only [hm.run_hidden_eq_wide hr]
  split
  · next hwide => exact hm.runWideField_eq hr hwide (by decide)
  · next hwide =>
    obtain ⟨hbefore, hafter, -⟩ := narrow_lt (Bool.eq_false_iff.2 hwide)
    rw [he, hm.run_hidden hr, if_neg hwide,
      add_mul_two_pow_shiftRight (hbefore.trans (by decide)),
      Nat.and_two_pow_sub_one_eq_mod _ 16, Nat.mod_eq_of_lt (hafter.trans (by decide)),
      UInt32.toNat_sub_of_le _ _ hend]
    exact Nat.sub_sub_self (UInt32.le_iff_toNat_le.1 hend)

/-- A run's parent is read back: by its distance where that fits, from the extras where not. -/
theorem runParent_eq {i : Nat} {r : RunRec} (hr : ex.runs[i]? = some r) :
    m.runParent i = r.parent.toNat := by
  have hi := (List.getElem?_eq_some_iff.1 hr).1
  have hcount := hm.wellFormed.runCount
  have hdistance := hm.run_distance hr
  rw [RenderModel.runParent]
  cases hwide : isWide i r with
  | true =>
    rw [if_pos hwide] at hdistance
    rw [hdistance]
    exact hm.runWideField_eq hr hwide (by decide)
  | false =>
    have hnarrow := (narrow_lt hwide).2.2
    rw [if_neg (by simp [hwide])] at hdistance
    rw [hdistance]
    rcases hm.wellFormed.runParent i r hr with hp | ⟨hlt, -⟩
    · rw [parentDistance, if_pos hp, hp]
      rfl
    · have hne : r.parent ≠ Native.noParent := by
        intro hp
        rw [hp] at hlt
        have : Native.noParent.toNat = 2 ^ 32 - 1 := rfl
        omega
      have hle : r.parent ≤ u32 i := by
        rw [UInt32.le_iff_toNat_le, u32_toNat (by omega)]
        omega
      rw [parentDistance, if_neg hne] at hnarrow ⊢
      rw [UInt32.toNat_sub_of_le _ _ hle, u32_toNat (by omega)] at hnarrow ⊢
      rw [if_neg (by omega), if_neg (by rw [RenderModel.wideDistance]; omega)]
      omega

/-- The owner of a run is found by its first run. -/
theorem runBlock_eq {i : Nat} {r : RunRec} (hr : ex.runs[i]? = some r) :
    m.runBlock i = r.block.toNat := by
  have hblock := hm.wellFormed.runBlock r (List.mem_of_getElem? hr)
  have hfirst : ∀ b, b < ex.blocks.length → (m.block b 7 ≤ i ↔ b ≤ r.block.toNat) := by
    intro b hb
    have h := hm.firstRunOfBlock_eq hb.le
    rw [RenderModel.firstRunOfBlock, hm.blockCount, if_pos hb] at h
    rw [h, ← Nat.not_lt, lt_length_takeWhile_iff hm.wellFormed.runOrder hr, Nat.not_lt]
  rw [RenderModel.runBlock, hm.blockCount]
  refine bisectLast_eq (Nat.zero_le _) (by omega) (fun j k _ hjk hk h => ?_) (fun _ => ?_)
    fun hnext => ?_
  · rw [decide_eq_true_eq, hfirst _ (by omega)] at h ⊢
    omega
  · rw [decide_eq_true_eq, hfirst _ hblock]
  · rw [decide_eq_false_iff_not, hfirst _ (by omega)]
    omega

/-- A run reads back field by field. -/
theorem runReads {i : Nat} {r : RunRec} (hr : ex.runs[i]? = some r) : RunReads ex m i r where
  kind := hm.runKind_eq hr
  reference := by
    rw [hm.runFlags_eq hr]
    exact (testBit_runFlags i r).1
  displayFromStrings := by
    rw [hm.runFlags_eq hr]
    exact (testBit_runFlags i r).2.1
  spansLines := by
    rw [hm.runFlags_eq hr]
    exact (testBit_runFlags i r).2.2
  block := hm.runBlock_eq hr
  parent := hm.runParent_eq hr
  start := hm.run_eq hr (by decide)
  stop := hm.run_eq hr (by decide)
  contentStart := hm.runContentStart_eq hr
  contentEnd := hm.runContentEnd_eq hr
  link := fun hlink =>
    have hextra := runKindExtra_of_isLink ex.li hlink
    ⟨hm.runExtraField_eq hr hextra (by simp), hm.runExtraField_eq hr hextra (by simp),
      hm.runExtraField_eq hr hextra (by simp), hm.runExtraField_eq hr hextra (by simp)⟩
  footnoteRef := fun hk =>
    have hextra := runKindExtra_of_footnoteRef ex.li hk
    ⟨hm.runExtraField_eq hr hextra (by simp), hm.runExtraField_eq hr hextra (by simp)⟩

/-- Every record of the model reads back. -/
theorem readsRecords : ReadsRecords ex m where
  sourceBytes := hm.sourceBytes
  sourceUtf16 := hm.sourceUtf16
  lineCount := hm.lineCount
  blockCount := hm.blockCount
  contentCount := hm.contentCount
  runCount := hm.runCount
  definitionCount := hm.definitionCount
  lines := fun _ hl => hm.lineStart_eq hl
  blocks := fun _ _ hb => hm.blockReads hb
  content := fun _ _ hc => hm.contentReads hc
  runs := fun _ _ hr => hm.runReads hr
  definitions := fun _ _ hd => hm.definitionReads hd

/-! ### Strings -/

theorem stringsByteOff_eq :
    m.stringsByteOff = (beforeExtras ex records ++ extras ex).length * 4 := by
  rw [RenderModel.stringsByteOff, hm.extrasOff, hm.extraWords, List.length_append, extras,
    List.length_append]

/-- The host decodes the bytes of an entry. -/
theorem string_eq {ref : UInt32 × UInt32}
    (hin : ref.1.toNat + ref.2.toNat ≤ ex.strings.length) :
    m.string ref.1.toNat ref.2.toNat = utf8Decode (ex.stringBytes ref) := by
  obtain ⟨padding, hpadding⟩ := leBytes_stringWords ex.strings
  rw [RenderModel.string, hm.stringsByteOff_eq, hm.bytes, hm.words_eq, toBytes, leBytes_append,
    hpadding, ← length_leBytes, ← List.drop_drop, List.drop_left,
    List.drop_append_of_le_length (by omega),
    List.take_append_of_le_length (by rw [List.length_drop]; omega)]
  rfl

/-- A string of a run comes back exactly if it does not begin with a byte order mark. -/
theorem string_eq_iff {r : RunRec} {ref : UInt32 × UInt32} (hr : r ∈ ex.runs)
    (href : ref ∈ r.stringRefs) :
    m.string ref.1.toNat ref.2.toNat = utf16OfUtf8 (ex.stringBytes ref) ↔
      ¬bomBytes <+: ex.stringBytes ref := by
  obtain ⟨hin, hvalid⟩ := hm.wellFormed.strings r hr ref href
  rw [hm.string_eq hin, utf8Decode_eq_iff hvalid]

/-- The destination of a link is read at the place published for it. -/
theorem linkDestination_eq {i : Nat} {r : RunRec} (hr : ex.runs[i]? = some r)
    (hlink : r.isLink) :
    m.linkDestination i = m.string r.destinationOffset.toNat r.destinationLength.toNat := by
  have hextra := runKindExtra_of_isLink ex.li hlink
  rw [RenderModel.linkDestination, hm.runExtraField_eq hr hextra (by simp),
    hm.runExtraField_eq hr hextra (by simp)]
  rfl

/-- The title of a link is read at the place published for it. -/
theorem linkTitle_eq {i : Nat} {r : RunRec} (hr : ex.runs[i]? = some r) (hlink : r.isLink) :
    m.linkTitle i = m.string r.titleOffset.toNat r.titleLength.toNat := by
  have hextra := runKindExtra_of_isLink ex.li hlink
  rw [RenderModel.linkTitle, hm.runExtraField_eq hr hextra (by simp),
    hm.runExtraField_eq hr hextra (by simp)]
  rfl

/-- What displays a string when published does so when read. -/
theorem displaysString_eq {i : Nat} {r : RunRec} (hr : ex.runs[i]? = some r) :
    m.displaysString i = true ↔ r.displaysString := by
  have hflag : (m.runFlags i &&& RunFlag.displayFromStrings != 0) = true ↔ r.flags &&& 2 ≠ 0 := by
    have hbit : ∀ n : Nat, n &&& 2 ≠ 0 ↔ n.testBit 1 = true := fun n => by
      rw [show (2 : Nat) = 2 ^ 1 from rfl, Nat.and_two_pow]
      cases n.testBit 1 <;> simp
    rw [bne_iff_ne, hm.runFlags_eq hr, Ne, Ne, ← UInt32.toNat_inj, UInt32.toNat_and]
    refine (hbit _).trans (Iff.trans ?_ (hbit _).symm)
    rw [(testBit_runFlags i r).2.1]
  rw [RenderModel.displaysString, RunRec.displaysString, Bool.or_eq_true, Bool.and_eq_true,
    hflag, hm.runKind_eq hr, beq_iff_eq, beq_iff_eq]

/-- What a run displays in place of its source is the string published for it. -/
theorem displayOverride_eq {i : Nat} {r : RunRec} (hr : ex.runs[i]? = some r) :
    m.displayOverride i = if r.displaysString then
      some (m.string r.displayRef.1.toNat r.displayRef.2.toNat) else none := by
  rw [RenderModel.displayOverride]
  simp only [hm.displaysString_eq hr]
  split
  · next hdisplays =>
    have hextra := runKindExtra_of_displaysString ex.li hdisplays
    rw [hm.runExtraField_eq hr hextra (by simp), hm.runExtraField_eq hr hextra (by simp)]
    rfl
  · rfl

/-- The strings of a run come back exactly if none begins with a byte order mark. -/
theorem runStringsRead_iff {i : Nat} {r : RunRec} (hr : ex.runs[i]? = some r) :
    RunStringsRead ex m i r ↔ ∀ ref ∈ r.stringRefs, ¬bomBytes <+: ex.stringBytes ref := by
  have hmem := List.mem_of_getElem? hr
  have hstring := fun ref (href : ref ∈ r.stringRefs) => hm.string_eq_iff hmem href
  constructor
  -- A link has two strings, a run that displays a string has one, and others have none.
  · intro h ref href
    refine (hstring ref href).1 ?_
    by_cases hlink : r.isLink
    · rw [RunRec.stringRefs, if_pos hlink, List.mem_cons, List.mem_singleton] at href
      rcases href with rfl | rfl
      · exact (hm.linkDestination_eq hr hlink).symm.trans (h.destination hlink)
      · exact (hm.linkTitle_eq hr hlink).symm.trans (h.title hlink)
    · have hdisplays : r.displaysString := by
        by_contra hno
        rw [RunRec.stringRefs, if_neg hlink, if_neg hno] at href
        exact List.not_mem_nil href
      rw [RunRec.stringRefs, if_neg hlink, if_pos hdisplays, List.mem_singleton] at href
      subst href
      have hdisplay := h.display
      rw [hm.displayOverride_eq hr, if_pos hdisplays, if_pos hdisplays] at hdisplay
      exact Option.some.inj hdisplay
  · intro h
    refine ⟨fun hlink => ?_, fun hlink => ?_, ?_⟩
    · have href : (r.destinationOffset, r.destinationLength) ∈ r.stringRefs := by
        rw [RunRec.stringRefs, if_pos hlink]
        exact List.mem_cons_self
      exact (hm.linkDestination_eq hr hlink).trans ((hstring _ href).2 (h _ href))
    · have href : (r.titleOffset, r.titleLength) ∈ r.stringRefs := by
        rw [RunRec.stringRefs, if_pos hlink]
        exact List.mem_cons_of_mem _ List.mem_cons_self
      exact (hm.linkTitle_eq hr hlink).trans ((hstring _ href).2 (h _ href))
    · rw [hm.displayOverride_eq hr]
      split
      · next hdisplays =>
        have href : r.displayRef ∈ r.stringRefs := by
          rw [RunRec.stringRefs, if_neg (not_isLink_of_displaysString hdisplays),
            if_pos hdisplays]
          exact List.mem_cons_self
        rw [(hstring _ href).2 (h _ href)]
      · rfl

/-- The strings read back where none begins with a byte order mark, and only there. -/
theorem readsBack_iff : ReadsBack ex m ↔ NoLeadingMark ex := by
  rw [ReadsBack, and_iff_right hm.readsRecords, NoLeadingMark]
  constructor
  · intro h r hr
    obtain ⟨i, hi⟩ := List.mem_iff_getElem?.1 hr
    exact (hm.runStringsRead_iff hi).1 (h i r hi)
  · exact fun h i r hr => (hm.runStringsRead_iff hr).2 (h r (List.mem_of_getElem? hr))

end Published

/-! ## The round trip -/

/-- The bytes of the published model are accepted. -/
theorem ofBytes_toBytes {ex : Extractor} {records : List (List UInt32)} {m : RenderModel}
    (hm : Published ex records m) : RenderModel.ofBytes (toBytes m.words) = .ok m := by
  have heq : (⟨toBytes m.words, leWords (toBytes m.words)⟩ : RenderModel) = m := by
    rw [toBytes, leWords_leBytes, ← toBytes, ← hm.bytes]
  have hlen : (toBytes m.words).length = m.stringsByteOff + (stringWords ex.strings).length * 4 := by
    rw [toBytes, length_leBytes, hm.stringsByteOff_eq, hm.words_eq, List.length_append,
      Nat.add_mul]
  have hstrings : ex.strings.length ≤ (stringWords ex.strings).length * 4 := by
    obtain ⟨padding, h⟩ := leBytes_stringWords ex.strings
    rw [← length_leBytes, h, List.length_append]
    exact Nat.le_add_right _ _
  have hheader : RenderModelSchema.headerWords * 4 ≤ m.stringsByteOff := by
    rw [RenderModel.stringsByteOff, RenderModel.extrasOff, RenderModel.runExtrasOff,
      RenderModel.defsOff, RenderModel.runsOff, RenderModel.contentOff, RenderModel.blocksOff,
      RenderModel.linesOff]
    omega
  have hmagic : m.word 0 = RenderModelSchema.magic := hm.word_header (by decide)
  have hversion : m.word 1 = RenderModelSchema.version := hm.word_header (by decide)
  rw [RenderModel.ofBytes, if_neg (by omega)]
  simp only [heq]
  rw [if_neg (not_not.2 hmagic), if_neg (not_not.2 hversion),
    if_neg (by rw [hlen, hm.stringBytes]; omega)]

/-- Encoding well-formed records notes nothing, and the host accepts the bytes. -/
theorem exists_published {ex : Extractor} (hwf : WellFormed ex) :
    ∃ words m records, ex.encode = some (ex, words) ∧
      RenderModel.ofBytes (toBytes words) = .ok m ∧ Published ex records m := by
  obtain ⟨records, hcount, hrecords, hencode⟩ := Native.encode_eq hwf
  generalize hwords : outWords ex (publishedSections ex records) = words at hencode
  have hm : Published ex records ⟨toBytes words, words⟩ :=
    ⟨hwf, rfl, hwords.symm, hcount, hrecords⟩
  exact ⟨words, ⟨toBytes words, words⟩, records, hencode, ofBytes_toBytes hm, hm⟩

/-- Encoding well-formed records notes nothing, the host accepts the bytes, and its
    accessors give back every record; they also give back the strings of the runs exactly
    if none begins with a byte order mark. -/
theorem encode_readsBack {ex : Extractor} (hwf : WellFormed ex) :
    ∃ words m, ex.encode = some (ex, words) ∧ RenderModel.ofBytes (toBytes words) = .ok m ∧
      ReadsRecords ex m ∧ (ReadsBack ex m ↔ NoLeadingMark ex) := by
  obtain ⟨words, m, records, hencode, hbytes, hm⟩ := exists_published hwf
  exact ⟨words, m, hencode, hbytes, hm.readsRecords, hm.readsBack_iff⟩

/-- The records of the document `&#65279;`: a paragraph whose only run displays the mark
    that the entity stands for. -/
def entityMark : Extractor where
  src := [0x26, 0x23, 0x36, 0x35, 0x32, 0x37, 0x39, 0x3B]
  li := ⟨[0], [8], [0, 1, 2, 3, 4, 5, 6, 7, 8]⟩
  blocks := [
    { (default : BlockRec) with
      parent := Native.noParent, endByte := 8, endUtf16 := 8, lineCount := 1 },
    { (default : BlockRec) with
      kind := 1, endByte := 8, endUtf16 := 8, lineCount := 1, contentCount := 1 }]
  content := [{ (default : ContentRec) with endByte := 8, endUtf16 := 8 }]
  runs := [{ (default : RunRec) with
    kind := 10, block := 1, parent := Native.noParent, endByte := 8, contentEndByte := 8,
    endUtf16 := 8, contentEndUtf16 := 8, aux1 := 3 }]
  definitions := []
  strings := bomBytes
  collect := true
  deviations := []

theorem utf16OfUtf8_nil : utf16OfUtf8 [] = some [] := by
  rw [utf16OfUtf8]
  exact congrArg (Option.map _) ByteArray.utf8Decode?_empty

/-- The document whose entity shows a byte order mark is well formed. -/
theorem entityMark_wellFormed : WellFormed entityMark where
  srcLength := by decide
  lineCount := by decide
  blockCount := by decide
  contentCount := by decide
  runCount := by decide
  definitionCount := by decide
  stringBytes := by decide
  extraWords := by decide
  blockFields := by decide
  runKind := by decide
  contentSlice := by decide
  contentOffset := by
    intro i b hb hcount
    match i with
    | 0 | 1 =>
      obtain rfl := Option.some.inj hb
      first | exact absurd rfl hcount | rfl
    | i + 2 => exact absurd hb (by simp [entityMark])
  contentOwned := by decide
  contentFields := by decide
  runOrder := by decide
  runBlock := by decide
  runRange := by decide
  runParent := by
    intro i r hr
    match i with
    | 0 =>
      obtain rfl := Option.some.inj hr
      exact Or.inl rfl
    | i + 1 => exact absurd hr (by simp [entityMark])
  strings := by
    intro r hr ref href
    obtain rfl := List.mem_singleton.1 hr
    obtain rfl := List.mem_singleton.1 href
    refine ⟨by decide, ?_⟩
    have hmark := utf16OfUtf8_bomBytes_append []
    rw [List.append_nil, utf16OfUtf8_nil] at hmark
    exact congrArg Option.isSome hmark

theorem encode_readsBack_entityMark :
    ∃ words m, entityMark.encode = some (entityMark, words) ∧
      RenderModel.ofBytes (toBytes words) = .ok m ∧ ReadsRecords entityMark m ∧
      (ReadsBack entityMark m ↔ NoLeadingMark entityMark) :=
  encode_readsBack entityMark_wellFormed

/-- Reading does not give back the records of every document: the host discards the mark. -/
theorem not_forall_readsBack :
    ¬∀ ex, WellFormed ex → ∃ words m, ex.encode = some (ex, words) ∧
      RenderModel.ofBytes (toBytes words) = .ok m ∧ ReadsBack ex m := by
  intro h
  obtain ⟨words, m, hencode, hbytes, hreads⟩ := h _ entityMark_wellFormed
  obtain ⟨words', m', records, hencode', hbytes', hm⟩ := exists_published entityMark_wellFormed
  obtain rfl : words = words' := congrArg Prod.snd (Option.some.inj (hencode.symm.trans hencode'))
  obtain rfl : m = m' := Except.ok.inj (hbytes.symm.trans hbytes')
  exact hm.readsBack_iff.1 hreads _ List.mem_cons_self (0, 3) List.mem_cons_self
    (List.prefix_refl bomBytes)

end Flark
