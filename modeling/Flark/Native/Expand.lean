import Flark.Native.Encode
import Flark.Native.Str

/-!
# Expanding a published model

`expand` of `records.rs` unpacks the words of a published model into the extractor's layout, flat
records of 32-bit words, and derives every byte offset from its UTF-16 offset. It fails where the
packed structure is inconsistent.

The length of the words is checked first, so that all words read lie in them: `word` reads zero
past them. Where lengths are added the model takes them as `u32` words, which wrap.
-/

namespace Flark.Native

/-- The error of a check. -/
abbrev Checked := Except String

/-- `byte_of`: the byte offset of each UTF-16 offset of a source, from byte `i` on; none between the
    units of a surrogate pair. -/
def byteOfFrom : (i : Nat) → Str → List (Option UInt32)
  | i, [] => [some (u32 i)]
  | i, c :: cs =>
    some (u32 i) :: (List.replicate ((unitsOf c).length - 1) none ++ byteOfFrom (i + c.utf8Size) cs)

/-- The words of a model, and the byte offsets of the source it is expanded with. -/
structure Expander where
  words : List UInt32
  byteOf : List (Option UInt32)

/-- What an item's marker and the attributes of a block are. -/
structure BlockAttrs where
  attr0 : UInt32
  attr1 : UInt32
  attr2 : UInt32
  flags : UInt32
  marker : UInt32 × UInt32

/-- What the kind of a run adds to its record. -/
structure RunAux where
  aux : UInt32 × UInt32 × UInt32 × UInt32
  resolved : UInt32 × UInt32 × UInt32 × UInt32

/-- `{x:#x}`. -/
def hex (x : UInt32) : String := "0x" ++ String.ofList (Nat.toDigits 16 x.toNat)

namespace Expander

variable (x : Expander)

def word (i : Nat) : UInt32 := x.words.getD i 0

def nl : Nat := (x.word 4).toNat
def nb : Nat := (x.word 5).toNat
def nc : Nat := (x.word 6).toNat
def nr : Nat := (x.word 7).toNat
def nd : Nat := (x.word 8).toNat
def nx : Nat := (x.word 9).toNat
def ne : Nat := (x.word 10).toNat
def ns : Nat := (x.word 11).toNat

def linesOff : Nat := RenderModelSchema.headerWords
def blocksOff : Nat := linesOff + x.nl * RenderModelSchema.lineWords
def contentOff : Nat := x.blocksOff + x.nb * RenderModelSchema.blockWords
def runsOff : Nat := x.contentOff + x.nc * RenderModelSchema.contentWords
def defsOff : Nat := x.runsOff + x.nr * RenderModelSchema.runWords
def indexOff : Nat := x.defsOff + x.nd * RenderModelSchema.definitionWords
def extrasOff : Nat := x.indexOff + x.nx * RenderModelSchema.runExtraWords
def stringsOff : Nat := x.extrasOff + x.ne

/-- `byte`: the byte offset of a UTF-16 offset. -/
def byte (u : UInt32) (what : String) : Checked UInt32 :=
  match x.byteOf.getD u.toNat none with
  | some b => .ok b
  | none =>
    let units := x.byteOf.length - 1
    .error s!"{what}: UTF-16 offset {u} is not a scalar boundary of {units} units"

/-- `extra_at`: the words of an extra record. -/
def extraAt (offset : UInt32) (words : Nat) (what : String) : Checked (List UInt32) :=
  if x.ne < offset.toNat + words then
    .error s!"{what}: extra {offset}+{words} beyond {x.ne} words"
  else .ok ((x.words.drop (x.extrasOff + offset.toNat)).take words)

/-- `string_in_bounds`. -/
def stringInBounds (offset length : UInt32) (what : String) : Checked Unit :=
  if x.ns < offset.toNat + length.toNat then
    .error s!"{what}: string {offset}+{length} beyond {x.ns}"
  else .ok ()

/-- The line `l`. -/
def line (l : Nat) : Checked (List UInt32) := do
  let s16 := x.word (linesOff + l)
  return [← x.byte s16 "line", s16]

/-- `blk`. -/
def blk (b f : Nat) : UInt32 := x.word (x.blocksOff + b * RenderModelSchema.blockWords + f)

/-- `first_run`: where the runs of block `b` begin, also past the last block. -/
def firstRun (b : Nat) : UInt32 := if b < x.nb then x.blk b 7 else u32 x.nr

/-- `content_at`: where the content records of block `b` begin, also past the last block. -/
def contentAt (b : Nat) : UInt32 := if b < x.nb then x.blk b 6 else u32 x.nc

/-- The check of where the runs and the content records of block `b` begin. -/
def checkSlices (b : Nat) : Checked Unit :=
  if x.nr < (x.firstRun b).toNat || 0 < b && x.firstRun b < x.firstRun (b - 1) then
    .error s!"block {b} first run {x.firstRun b}"
  else if x.nc < (x.contentAt b).toNat || 0 < b && x.contentAt b < x.contentAt (b - 1) then
    .error s!"block {b} content offset {x.contentAt b}"
  else .ok ()

/-- The `match` on the kind of a block. -/
def blockAttrs (kind : Nat) (flags attr extra : UInt32) : Checked BlockAttrs :=
  if kind = BlockKind.codeBlock ∧ flags &&& 1 ≠ 0 then do
    let e ← x.extraAt extra 2 "code block"
    let attr1 ← x.byte (e.getD 0 0) "info start"
    let attr2 ← x.byte (e.getD 1 0) "info end"
    return ⟨attr, attr1, attr2, flags, (0, 0)⟩
  else if kind = BlockKind.list then
    .ok ⟨flags >>> 1 &&& 1, attr, 0, flags &&& 1, (0, 0)⟩
  else if kind = BlockKind.item then do
    let e ← x.extraAt extra 3 "item"
    let marker ← x.byte (e.getD 0 0) "marker end"
    let attr1 ← x.byte (e.getD 1 0) "task start"
    let attr2 ← x.byte (e.getD 2 0) "task end"
    return ⟨attr, attr1, attr2, flags, (marker, e.getD 0 0)⟩
  else if kind = BlockKind.table then do
    let e ← x.extraAt extra 1 "table"
    return ⟨attr, e.getD 0 0, 0, flags, (0, 0)⟩
  else if kind = BlockKind.footnoteDefinition then do
    let e ← x.extraAt extra 2 "footnote definition"
    let attr1 ← x.byte (e.getD 0 0) "label start"
    let attr2 ← x.byte (e.getD 1 0) "label end"
    return ⟨attr, attr1, attr2, flags, (0, 0)⟩
  else .ok ⟨attr, 0, 0, flags, (0, 0)⟩

/-- Whether a block of a kind owns an extra record. -/
def blockOwnsExtra (kind : Nat) (flags : UInt32) : Bool :=
  if kind = BlockKind.codeBlock then flags &&& 1 ≠ 0
  else kind = BlockKind.item || kind = BlockKind.table || kind = BlockKind.footnoteDefinition

/-- The block `b`. -/
def block (b : Nat) : Checked (List UInt32) :=
  let kindFlags := x.blk b 0
  let kind := kindFlags >>> 0 &&& 0xFF
  let flags := kindFlags >>> 8 &&& 0xFFFFFF
  let s16 := x.blk b 2
  let e16 := x.blk b 3
  let extra := x.blk b 9
  if blockOwnsExtra kind.toNat flags ≠ decide (extra ≠ u32 RenderModelSchema.noExtra) then
    .error s!"block {b} of kind {kind} has extra {hex extra}"
  else do
    let attrs ← x.blockAttrs kind.toNat flags (x.blk b 8) extra
    let start ← x.byte s16 "block start"
    let stop ← x.byte e16 "block end"
    return [kind, x.blk b 1, start, stop, s16, e16, x.blk b 4, x.blk b 5, x.contentAt b,
      x.contentAt (b + 1) - x.contentAt b, attrs.attr0, attrs.attr1, attrs.attr2, attrs.flags,
      attrs.marker.1, attrs.marker.2]

/-- The content record `c`. -/
def content (c : Nat) : Checked (List UInt32) := do
  let cw (f : Nat) := x.word (x.contentOff + c * RenderModelSchema.contentWords + f)
  let start ← x.byte (cw 0) "content start"
  let stop ← x.byte (cw 1) "content end"
  let prefixStart ← x.byte (cw 2) "prefix start"
  return [cw 3 >>> 0 &&& 0x3FFFFFFF, start, cw 0, stop, cw 1, cw 3 >>> 30 &&& 0x3, prefixStart,
    cw 2]

/-- The entry `i` of the run-extra index: a run and where its extras begin. -/
def indexEntry (i : Nat) : UInt32 × UInt32 :=
  (x.word (x.indexOff + i * RenderModelSchema.runExtraWords),
    x.word (x.indexOff + i * RenderModelSchema.runExtraWords + 1))

/-- The loop over the run-extra index, at entry `i`. -/
def addIndexEntry (runExtra : List (Option UInt32)) (i : Nat) : Checked (List (Option UInt32)) :=
  let (r, offset) := x.indexEntry i
  if x.nr ≤ r.toNat || 0 < i && r ≤ (x.indexEntry (i - 1)).1 then
    .error s!"run-extra index entry {i} names run {r}"
  else .ok (runExtra.set r.toNat (some offset))

/-- `run_extra`: where the extras of each run begin. -/
def runExtra : Checked (List (Option UInt32)) :=
  (List.range x.nx).foldlM x.addIndexEntry (List.replicate x.nr none)

/-- The loop that finds the owner of run `i`, from a block on. A turn goes on by a block, so that
    the blocks bound the turns. -/
def ownerFrom (i : Nat) : (turns : Nat) → (owner : Nat) → Nat
  | 0, owner => owner
  | turns + 1, owner =>
    if owner + 1 < x.nb ∧ (x.firstRun (owner + 1)).toNat ≤ i then ownerFrom i turns (owner + 1)
    else owner

/-- The content range, the parent and the cursor past the wide fields of run `i`. -/
def runRange (i : Nat) (isWide : Bool) (s16 e16 hidden distance cursor : UInt32) :
    Checked (UInt32 × UInt32 × UInt32 × UInt32) :=
  if isWide then do
    let e ← x.extraAt cursor 3 "wide run"
    return (e.getD 0 0, e.getD 1 0, e.getD 2 0, cursor + 3)
  else
    -- The content is said by the lengths hidden on either side, and the parent by its distance.
    let before := hidden >>> 0 &&& 0xFFFF
    let after := hidden >>> 16 &&& 0xFFFF
    if e16 < before + s16 || e16 < after then
      .error s!"run {i} hidden lengths {before}/{after} exceed {s16}..{e16}"
    else if distance = 0 then .ok (s16 + before, e16 - after, noParent, cursor)
    else if i < distance.toNat then .error s!"run {i} parent distance {distance}"
    else .ok (s16 + before, e16 - after, u32 i - distance, cursor)

/-- The `match` on the kind of a run. -/
def runAux (kind : Nat) (flags cursor : UInt32) : Checked RunAux :=
  if kind = RunKind.link ∨ kind = RunKind.image ∨ kind = RunKind.autolink then do
    let e ← x.extraAt cursor 8 "link"
    let aux0 ← x.byte (e.getD 0 0) "link range"
    let aux1 ← x.byte (e.getD 1 0) "link range"
    let aux2 ← x.byte (e.getD 2 0) "link range"
    let aux3 ← x.byte (e.getD 3 0) "link range"
    x.stringInBounds (e.getD 4 0) (e.getD 5 0) "destination"
    x.stringInBounds (e.getD 6 0) (e.getD 7 0) "title"
    return ⟨(aux0, aux1, aux2, aux3), (e.getD 4 0, e.getD 5 0, e.getD 6 0, e.getD 7 0)⟩
  else if kind = RunKind.replacement then do
    let e ← x.extraAt cursor 2 "replacement"
    x.stringInBounds (e.getD 0 0) (e.getD 1 0) "replacement"
    return ⟨(e.getD 0 0, e.getD 1 0, 0, 0), (0, 0, 0, 0)⟩
  else if kind = RunKind.code ∧ flags &&& 2 ≠ 0 then do
    let e ← x.extraAt cursor 2 "code display"
    x.stringInBounds (e.getD 0 0) (e.getD 1 0) "code display"
    return ⟨(0, 0, e.getD 0 0, e.getD 1 0), (0, 0, 0, 0)⟩
  else if kind = RunKind.footnoteRef then do
    let e ← x.extraAt cursor 2 "footnote reference"
    let aux0 ← x.byte (e.getD 0 0) "label start"
    let aux1 ← x.byte (e.getD 1 0) "label end"
    return ⟨(aux0, aux1, 0, 0), (0, 0, 0, 0)⟩
  else .ok ⟨(0, 0, 0, 0), (0, 0, 0, 0)⟩

/-- Whether a run of a kind owns an extra record. -/
def runOwnsExtra (kind : Nat) (flags : UInt32) : Bool :=
  flags &&& 8 ≠ 0 || kind = RunKind.link || kind = RunKind.image || kind = RunKind.autolink ||
    kind = RunKind.replacement || kind = RunKind.footnoteRef ||
    kind = RunKind.code && flags &&& 2 ≠ 0

/-- `{:?}` of where the extras of a run begin. -/
def showOffset : Option UInt32 → String
  | none => "None"
  | some offset => s!"Some({offset})"

/-- The run `i` of a block. -/
def run (runExtra : List (Option UInt32)) (owner i : Nat) : Checked (List UInt32) :=
  let field (f : Nat) := x.word (x.runsOff + i * RenderModelSchema.runWords + f)
  let s16 := field 0
  let e16 := field 1
  let hidden := field 2
  let packed := field 3
  let kind := packed >>> 0 &&& 0xFF
  let flags := packed >>> 8 &&& 0xFF
  let distance := packed >>> 16 &&& 0xFFFF
  let extra := runExtra.getD i none
  -- A run has an entry in the index exactly if its kind, or its width, asks for extras.
  if runOwnsExtra kind.toNat flags ≠ extra.isSome then
    .error s!"run {i} of kind {kind} extra index {showOffset extra}"
  else do
    let (cs16, ce16, parent, cursor) ←
      x.runRange i (decide (flags &&& (8 : UInt32) ≠ 0)) s16 e16 hidden distance (extra.getD 0)
    let ⟨aux, resolved⟩ ← x.runAux kind.toNat flags cursor
    let start ← x.byte s16 "run start"
    let stop ← x.byte e16 "run end"
    let contentStart ← x.byte cs16 "run content start"
    let contentStop ← x.byte ce16 "run content end"
    return [kind, u32 owner, parent, start, stop, contentStart, contentStop, s16, e16, cs16, ce16,
      aux.1, aux.2.1, aux.2.2.1, aux.2.2.2,
      (flags &&& (3 : UInt32)) ||| (flags >>> 2 &&& (1 : UInt32)) <<< (8 : UInt32), resolved.1,
      resolved.2.1, resolved.2.2.1, resolved.2.2.2]

/-- The loop over the runs, from run `i` on, given the owner of the run before. -/
def runsFrom (runExtra : List (Option UInt32)) : (runs i owner : Nat) → Checked (List UInt32)
  | 0, _, _ => .ok []
  | runs + 1, i, owner => do
    let owner := x.ownerFrom i x.nb owner
    let record ← x.run runExtra owner i
    return record ++ (← runsFrom runExtra runs (i + 1) owner)

/-- The definition `d`. -/
def definition (d : Nat) : Checked (List UInt32) := do
  let dw (f : Nat) := x.word (x.defsOff + d * RenderModelSchema.definitionWords + f)
  let start ← x.byte (dw 0) "definition start"
  let stop ← x.byte (dw 1) "definition end"
  let labelStart ← x.byte (dw 2) "label start"
  let labelStop ← x.byte (dw 3) "label end"
  let destStart ← x.byte (dw 4) "destination start"
  let destStop ← x.byte (dw 5) "destination end"
  return [start, stop, dw 0, dw 1, labelStart, labelStop, destStart, destStop]

/-- The header in the extractor's layout. -/
def header (srcBytes srcUtf16 : Nat) : List UInt32 :=
  [u32 RenderModelSchema.magic, u32 RenderModelSchema.version, u32 srcBytes, u32 srcUtf16,
    u32 x.nl, u32 x.nb, u32 x.nc, u32 x.nr, u32 x.nd, u32 x.ns, 0]

/-- The sections, behind the header. -/
def sections : Checked (List UInt32) := do
  -- In the order of the sections, so that the first of several errors is the one reported.
  let lines ← (List.range x.nl).mapM x.line
  (List.range x.nb).forM x.checkSlices
  if 0 < x.nb ∧ x.firstRun 0 ≠ 0 then throw "first block's runs do not start at 0"
  if 0 < x.nb ∧ x.contentAt 0 ≠ 0 then throw "first block's content does not start at 0"
  let blocks ← (List.range x.nb).mapM x.block
  let content ← (List.range x.nc).mapM x.content
  let runExtra ← x.runExtra
  let runs ← x.runsFrom runExtra x.nr 0 0
  let definitions ← (List.range x.nd).mapM x.definition
  return lines.flatten ++ blocks.flatten ++ content.flatten ++ runs ++ definitions.flatten ++
    x.words.drop x.stringsOff

end Expander

/-- `expand`: the words of a published model in the extractor's layout. -/
def expand (src : Str) (w : List UInt32) : Checked (List UInt32) :=
  let x : Expander := ⟨w, byteOfFrom 0 src⟩
  let words := x.stringsOff + (x.ns + 3) / 4
  if w.length < RenderModelSchema.headerWords then .error "short header"
  else if x.word 0 ≠ u32 RenderModelSchema.magic ∨ x.word 1 ≠ u32 RenderModelSchema.version then
    .error "bad magic/version"
  else if w.length ≠ words then .error s!"buffer words {w.length} != expected {words}"
  else if (x.word 2).toNat ≠ Str.len src then .error "src_bytes"
  else if (x.word 3).toNat ≠ (units src).length then .error "src_utf16"
  else do
    return x.header (Str.len src) (units src).length ++ (← x.sections)

end Flark.Native
