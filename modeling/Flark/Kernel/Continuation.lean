import Flark.Kernel.LeafRow

/-!
# Continuation prefixes

The container prefix a line takes to continue the containers of the line above
(`kernel/continuation.dart`). The projection shows a table's delimiter line only under it.
-/

namespace Flark

/-- Where a line starts, past the byte order mark that may lead the first line. -/
def lineStartPastMark (src : Text) (m : RenderModel) (line : Nat) : Int :=
  let start := m.lineStartUtf16 line
  if start = 0 ∧ src ≠ [] ∧ src.codeUnitAt 0 = 0xFEFF then 1 else start

/-- The indent that continues a footnote definition. -/
def footnoteIndent : Text := Text.ofString "    "

/-- The indentation at a marker's width, tabs kept. -/
def markerIndent (marker : Text) : Text := marker.map fun u => if u = 0x09 then u else 0x20

/-- Back over the blanks before `at`. -/
def backOverBlanks (piece : Text) : (at_ : Nat) → Nat
  | 0 => 0
  | n + 1 =>
    if piece.codeUnitAt n = 0x20 ∨ piece.codeUnitAt n = 0x09 then backOverBlanks piece n else n + 1

/-- The prefix with the marker of `parent`, a block that opens on the line, turned into the
    indentation that continues it. -/
def continueMarker (m : RenderModel) (lineStart : Int) (line parent child : Nat) (piece : Text) :
    Text :=
  let kind := m.blockKind parent
  if (kind = BlockKind.item ∨ kind = BlockKind.footnoteDefinition) ∧
      m.blockFirstLine parent = line then
    let start := m.blockStart parent - lineStart
    let stop := m.blockStart child - lineStart
    if 0 ≤ start ∧ start < stop ∧ stop ≤ piece.length then
      let marker := piece.substring start stop
      let start :=
        if kind = BlockKind.footnoteDefinition ∧
            m.blockKind (m.blockParent parent) = BlockKind.document then
          backOverBlanks piece start.toNat
        else start.toNat
      let pad : Bool := 0 < start &&
        !((Text.ofString " \t\r\n").contains (piece.codeUnitAt (start - 1 : Nat)))
      piece.replaceRange start stop.toNat
        ((if pad then [0x20] else []) ++
          if kind = BlockKind.item then markerIndent marker else footnoteIndent)
    else piece
  else piece

/-- The loop up the parents of a block, which come before it. -/
def continueParents (m : RenderModel) (lineStart : Int) (line : Nat) :
    (fuel : Nat) → (child : Nat) → (piece : Text) → Text
  | 0, _, piece => piece
  | fuel + 1, child, piece =>
    let parent := m.blockParent child
    if parent = noParent then piece
    else
      continueParents m lineStart line fuel parent
        (continueMarker m lineStart line parent child piece)

/-- `continuationPrefix`: the container prefix that continues `line` up to `stop`, for a line
    inside `block`. -/
def continuationPrefix (src : Text) (m : RenderModel) (line stop block : Nat) : Text :=
  let lineStart := lineStartPastMark src m line
  continueParents m lineStart line m.blockCount block (src.substring lineStart stop)

end Flark
