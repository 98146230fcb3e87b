import Flark.Lib.Bisect
import Flark.Lib.Packing
import Flark.Schema
import Flark.Text

/-!
# Reading the render model

`RenderModel` of `parse/render_model.dart`: the flat model a parse returns, read through
its words. Every offset is a UTF-16 code unit of the source. A model is made from bytes
whose header fits them (`RenderModel.ofBytes`); the accessors then compute where their
record lies. An index past the words would throw: here it reads zero, and no accessor
meets it on a record that the header counts.

The position of the run-extra record of a run and the owner of a run are found by
bisection, as in the source.
-/

namespace Flark

open Bisect Packing

/-- A render model: the bytes, and their words. -/
structure RenderModel where
  bytes : List UInt8
  words : List UInt32
  deriving DecidableEq, Inhabited

namespace RenderModel

variable (m : RenderModel)

/-- The word at `i`. -/
def word (i : Nat) : Nat := (m.words.getD i 0).toNat

/-! ## The header -/

def sourceBytes : Nat := m.word 2
def sourceUtf16 : Nat := m.word 3
def lineCount : Nat := m.word 4
def blockCount : Nat := m.word 5
def contentCount : Nat := m.word 6
def runCount : Nat := m.word 7
def definitionCount : Nat := m.word 8
def runExtraCount : Nat := m.word 9
def extraWords : Nat := m.word 10
def stringBytes : Nat := m.word 11

def linesOff : Nat := RenderModelSchema.headerWords
def blocksOff : Nat := linesOff + m.lineCount * RenderModelSchema.lineWords
def contentOff : Nat := m.blocksOff + m.blockCount * RenderModelSchema.blockWords
def runsOff : Nat := m.contentOff + m.contentCount * RenderModelSchema.contentWords
def defsOff : Nat := m.runsOff + m.runCount * RenderModelSchema.runWords
def runExtrasOff : Nat := m.defsOff + m.definitionCount * RenderModelSchema.definitionWords
def extrasOff : Nat := m.runExtrasOff + m.runExtraCount * RenderModelSchema.runExtraWords
def stringsByteOff : Nat := (m.extrasOff + m.extraWords) * 4

/-- The factory `RenderModel(bytes)`: the sections that the header counts are in the bytes. -/
def ofBytes (bytes : List UInt8) : Except String RenderModel :=
  if bytes.length < RenderModelSchema.headerWords * 4 then
    .error "render model shorter than its header"
  else
    let m : RenderModel := ⟨bytes, leWords bytes⟩
    let version := m.word 1
    if m.word 0 ≠ RenderModelSchema.magic then .error "render model magic mismatch"
    else if version ≠ RenderModelSchema.version then
      .error s!"render model version {version}, expected {RenderModelSchema.version}"
    else if bytes.length < m.stringsByteOff + m.stringBytes then
      .error "render model truncated"
    else .ok m

/-! ## Sections -/

/-- `_block`. -/
def block (index field : Nat) : Nat :=
  m.word (m.blocksOff + index * RenderModelSchema.blockWords + field)

/-- `_content`. -/
def content (index field : Nat) : Nat :=
  m.word (m.contentOff + index * RenderModelSchema.contentWords + field)

/-- `_run`. -/
def run (index field : Nat) : Nat :=
  m.word (m.runsOff + index * RenderModelSchema.runWords + field)

/-- `_extra`. -/
def extra (offset : Nat) : Nat := m.word (m.extrasOff + offset)

/-- A string-table entry; `none` where the decoder throws. -/
def string (offset length : Nat) : Option Text :=
  utf8Decode ((m.bytes.drop (m.stringsByteOff + offset)).take length)

/-! ## Lines -/

def lineStartUtf16 (line : Nat) : Nat := m.word (linesOff + line * RenderModelSchema.lineWords)

/-- `lineOfUtf16`: index of the line containing `offset` (the last line for the end of the
    source). The lines around the one found last, which the code tries before it searches, are no
    others, as line starts increase. -/
def lineOfUtf16 (offset : Nat) : Nat :=
  bisectLast (fun mid => m.lineStartUtf16 mid ≤ offset) 0 (m.lineCount - 1)

/-! ## Blocks -/

def blockKind (index : Nat) : Nat := m.block index 0 >>> 0 &&& 0xFF
def blockFlags (index : Nat) : Nat := m.block index 0 >>> 8 &&& 0xFFFFFF

/-- The parent block's index, or `noParent` for the document. -/
def blockParent (index : Nat) : Nat := m.block index 1
def blockStart (index : Nat) : Nat := m.block index 2
def blockEnd (index : Nat) : Nat := m.block index 3
def blockFirstLine (index : Nat) : Nat := m.block index 4
def blockLineCount (index : Nat) : Nat := m.block index 5

/-- Heading level, fence length, list start number, item content column or table column
    count, by kind. -/
def blockAttr (index : Nat) : Nat := m.block index 8

def blockContentOffset (index : Nat) : Nat := m.block index 6
def blockContentCount (index : Nat) : Nat :=
  (if index + 1 < m.blockCount then m.block (index + 1) 6 else m.contentCount) - m.block index 6

/-- Index of the first run whose block is at or after `index`. -/
def firstRunOfBlock (index : Nat) : Nat :=
  if index < m.blockCount then m.block index 7 else m.runCount

/-- `_blockExtra`: zero without an extra record. -/
def blockExtra (index field : Nat) : Nat :=
  let offset := m.block index 9
  if offset = RenderModelSchema.noExtra then 0 else m.extra (offset + field)

def codeInfoStart (index : Nat) : Nat := m.blockExtra index 0
def codeInfoEnd (index : Nat) : Nat := m.blockExtra index 1
def itemMarkerEnd (index : Nat) : Nat := m.blockExtra index 0
def itemTaskStart (index : Nat) : Nat := m.blockExtra index 1
def itemTaskEnd (index : Nat) : Nat := m.blockExtra index 2
def tableAlignments (index : Nat) : Nat := m.blockExtra index 0
def footnoteLabelStart (index : Nat) : Nat := m.blockExtra index 0
def footnoteLabelEnd (index : Nat) : Nat := m.blockExtra index 1

/-! ## Content records -/

def contentLine (index : Nat) : Nat := m.content index 3 >>> 0 &&& 0x3FFFFFFF
def contentStart (index : Nat) : Nat := m.content index 0
def contentEnd (index : Nat) : Nat := m.content index 1
def contentPrefixStart (index : Nat) : Nat := m.content index 2
def contentVirtualSpaces (index : Nat) : Nat := m.content index 3 >>> 30 &&& 0x3

/-! ## Runs -/

def wideHidden : Nat := 0xFFFFFFFF
def wideDistance : Nat := 0xFFFF

def runKind (index : Nat) : Nat := m.run index 3 >>> 0 &&& 0xFF
def runFlags (index : Nat) : Nat := m.run index 3 >>> 8 &&& 0xFF
def runStart (index : Nat) : Nat := m.run index 0
def runEnd (index : Nat) : Nat := m.run index 1

/-- The run of entry `i` of the run-extra index. -/
def runExtraRun (i : Nat) : Nat := m.word (m.runExtrasOff + i * RenderModelSchema.runExtraWords)

/-- `_runExtra`: offset of the run's record in the extras section, `none` for -1. -/
def runExtra (index : Nat) : Option Nat :=
  let lo := bisectFirst (fun mid => m.runExtraRun mid < index) 0 m.runExtraCount
  if lo < m.runExtraCount ∧ m.runExtraRun lo = index then
    some (m.word (m.runExtrasOff + lo * RenderModelSchema.runExtraWords + 1))
  else none

/-- `_extra(_runExtra(index) + field)`, for the wide fields. -/
def runWideField (index field : Nat) : Nat :=
  match m.runExtra index with
  | some offset => m.extra (offset + field)
  | none => 0

def runContentStart (index : Nat) : Nat :=
  let hidden := m.run index 2
  if hidden = wideHidden then m.runWideField index 0
  else m.run index 0 + (hidden >>> 0 &&& 0xFFFF)

def runContentEnd (index : Nat) : Nat :=
  let hidden := m.run index 2
  if hidden = wideHidden then m.runWideField index 1
  else m.run index 1 - (hidden >>> 16 &&& 0xFFFF)

/-- The parent run's index, or `noParent`. -/
def runParent (index : Nat) : Nat :=
  let distance := m.run index 3 >>> 16 &&& 0xFFFF
  if distance = 0 then noParent
  else if distance = wideDistance then m.runWideField index 2
  else index - distance

/-- The block that owns the run: the last block whose first run is at or before it. -/
def runBlock (index : Nat) : Nat :=
  bisectLast (fun mid => m.block mid 7 ≤ index) 0 (m.blockCount - 1)

/-- `_runKindExtra`: offset of the run's record in the extras section, past its wide
    fields; `none` for -1. -/
def runKindExtra (index : Nat) : Option Nat :=
  (m.runExtra index).map fun offset =>
    if m.run index 2 = wideHidden then offset + 3 else offset

/-- `_runExtraField`: zero without an extra record. -/
def runExtraField (index field : Nat) : Nat :=
  match m.runKindExtra index with
  | some offset => m.extra (offset + field)
  | none => 0

def linkDestinationStart (index : Nat) : Nat := m.runExtraField index 0
def linkDestinationEnd (index : Nat) : Nat := m.runExtraField index 1
def linkTitleStart (index : Nat) : Nat := m.runExtraField index 2
def linkTitleEnd (index : Nat) : Nat := m.runExtraField index 3

/-- The resolved destination of a link, image or autolink. -/
def linkDestination (index : Nat) : Option Text :=
  m.string (m.runExtraField index 4) (m.runExtraField index 5)

/-- The resolved title of a link or image. -/
def linkTitle (index : Nat) : Option Text :=
  m.string (m.runExtraField index 6) (m.runExtraField index 7)

/-- The run displays text of the string table: replacement runs always, code runs with the
    flag. -/
def displaysString (index : Nat) : Bool :=
  m.runKind index == RunKind.replacement ||
    m.runKind index == RunKind.code && m.runFlags index &&& RunFlag.displayFromStrings != 0

/-- Display text of a run whose content is not a source slice, the outer `none` being the
    `null` of a run whose content is. -/
def displayOverride (index : Nat) : Option (Option Text) :=
  if m.displaysString index then
    some (m.string (m.runExtraField index 0) (m.runExtraField index 1))
  else none

def footnoteRefLabelStart (index : Nat) : Nat := m.runExtraField index 0
def footnoteRefLabelEnd (index : Nat) : Nat := m.runExtraField index 1

/-! ## Definitions -/

/-- `_definition`. -/
def definition (index field : Nat) : Nat :=
  m.word (m.defsOff + index * RenderModelSchema.definitionWords + field)

def definitionStart (index : Nat) : Nat := m.definition index 0
def definitionEnd (index : Nat) : Nat := m.definition index 1
def definitionLabelStart (index : Nat) : Nat := m.definition index 2
def definitionLabelEnd (index : Nat) : Nat := m.definition index 3
def definitionDestinationStart (index : Nat) : Nat := m.definition index 4
def definitionDestinationEnd (index : Nat) : Nat := m.definition index 5

end RenderModel

end Flark
