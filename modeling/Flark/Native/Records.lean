import Mathlib.Data.List.Basic

/-!
# The extractor's records

The internal records of the native parser (`native/flark_parse`): flat arrays of
32-bit words, here structures with one field a word, under the words' names. Every
range carries UTF-8 bytes beside UTF-16 code units, which the derivations and their
validation work in; the published model keeps the UTF-16 units only
(`Flark.Native.Encode`).

An `Extractor` holds the records of a document being extracted, with the deviations
found so far. A partial step of it (an index that the source trusts to be in range)
is an `Option`: `none` is the panic.
-/

namespace Flark.Native

/-- `u32::MAX`, the parent of a block or a run without one. -/
def noParent : UInt32 := 0xFFFFFFFF

/-- A block record (`records::block`). What `attr0`, `attr1`, `attr2` and `flags`
    mean depends on the kind. -/
structure BlockRec where
  kind : UInt32
  parent : UInt32
  startByte : UInt32
  endByte : UInt32
  startUtf16 : UInt32
  endUtf16 : UInt32
  firstLine : UInt32
  lineCount : UInt32
  contentOffset : UInt32
  contentCount : UInt32
  attr0 : UInt32
  attr1 : UInt32
  attr2 : UInt32
  flags : UInt32
  markerEndByte : UInt32
  markerEndUtf16 : UInt32
  deriving DecidableEq, Inhabited, Repr

/-- A content record (`records::content`): one line of a block's content. -/
structure ContentRec where
  line : UInt32
  startByte : UInt32
  startUtf16 : UInt32
  endByte : UInt32
  endUtf16 : UInt32
  virtualLeadingSpaces : UInt32
  prefixStartByte : UInt32
  prefixStartUtf16 : UInt32
  deriving DecidableEq, Inhabited, Repr

/-- A run record (`records::run`): an inline construct of a leaf. `parent` is the
    index of the run around it, and the source outside its content range is its
    delimiters. -/
structure RunRec where
  kind : UInt32
  block : UInt32
  parent : UInt32
  startByte : UInt32
  endByte : UInt32
  contentStartByte : UInt32
  contentEndByte : UInt32
  startUtf16 : UInt32
  endUtf16 : UInt32
  contentStartUtf16 : UInt32
  contentEndUtf16 : UInt32
  aux0 : UInt32
  aux1 : UInt32
  aux2 : UInt32
  aux3 : UInt32
  flags : UInt32
  destinationOffset : UInt32
  destinationLength : UInt32
  titleOffset : UInt32
  titleLength : UInt32
  deriving DecidableEq, Inhabited, Repr

/-- A link reference definition (`reference_definitions::Definition`): its byte
    ranges in the source. -/
structure Definition where
  start : Nat
  stop : Nat
  label : Nat × Nat
  dest : Nat × Nat
  deriving DecidableEq, Inhabited, Repr

/-- A validation finding (`Deviation`). `leaf` names the leaf whose runs were dropped
    because of it; a finding without one refuses the whole model. -/
structure Deviation where
  rule : String
  detail : String
  leaf : Option UInt32
  deriving DecidableEq, Inhabited, Repr

/-- The line table and the table of the UTF-16 units before each byte (`LineIndex`). -/
structure LineIndex where
  lineStarts : List Nat
  lineEnds : List Nat
  utf16 : List UInt32
  deriving DecidableEq, Inhabited, Repr

namespace LineIndex

variable (li : LineIndex)

/-- `LineIndex::line_count`. -/
def lineCount : Nat := li.lineStarts.length

/-- `LineIndex::line_start`: past the last line, the last line's. -/
def lineStart (line0 : Nat) : Nat :=
  li.lineStarts.getD (min line0 (li.lineStarts.length - 1)) 0

/-- `LineIndex::u16`: past the last byte, the last byte's. -/
def u16 (byte : Nat) : UInt32 := li.utf16.getD (min byte (li.utf16.length - 1)) 0

end LineIndex

/-- The state of the extraction of one document (`Extractor`), without the caches
    and the cursors of the walk over comrak's tree. -/
structure Extractor where
  src : List UInt8
  li : LineIndex
  blocks : List BlockRec
  content : List ContentRec
  runs : List RunRec
  definitions : List Definition
  strings : List UInt8
  collect : Bool
  deviations : List Deviation
  deriving DecidableEq, Inhabited, Repr

/-- `Extractor::dev`: note a deviation, when the extractor collects them. -/
def Extractor.dev (ex : Extractor) (rule detail : String) : Extractor :=
  if ex.collect then { ex with deviations := ex.deviations ++ [⟨rule, detail, none⟩] } else ex

/-- `&v[from..]`, which panics when `from` is past the end of `v`. -/
def sliceFrom {α : Type} (v : List α) (start : Nat) : Option (List α) :=
  if start ≤ v.length then some (v.drop start) else none

theorem sliceFrom_eq_some {α : Type} {v w : List α} {start : Nat} :
    sliceFrom v start = some w ↔ start ≤ v.length ∧ v.drop start = w := by
  simp [sliceFrom]

end Flark.Native
