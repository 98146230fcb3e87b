import Mathlib.Init

/-!
# The schema of the render model

The constants that `gen_schema.py` writes from `schema/render_model_v5.json` for both
sides of the wire: `schema.rs` for the encoder, `schema.g.dart` for the reader. The
masks and shifts of the packed fields are read off the words in `Flark.Parse.RenderModel`.
-/

namespace Flark

namespace RenderModelSchema

def version : Nat := 5
def magic : Nat := 0x354B4C46
def headerWords : Nat := 12
def lineWords : Nat := 1
def blockWords : Nat := 10
def contentWords : Nat := 4
def runWords : Nat := 4
def definitionWords : Nat := 6
def runExtraWords : Nat := 2

/-- A block without an extra record (`extra::NONE`). -/
def noExtra : Nat := 0xFFFFFFFF

end RenderModelSchema

/-- Sentinel for "no parent" in block and run parent fields. -/
def noParent : Nat := 0xFFFFFFFF

namespace BlockKind

def document : Nat := 0
def paragraph : Nat := 1
def heading : Nat := 2
def codeBlock : Nat := 3
def htmlBlock : Nat := 4
def blockQuote : Nat := 5
def list : Nat := 6
def item : Nat := 7
def thematicBreak : Nat := 8
def table : Nat := 9
def tableCell : Nat := 11
def footnoteDefinition : Nat := 12
def other : Nat := 14

end BlockKind

namespace RunKind

def text : Nat := 1
def emph : Nat := 2
def strong : Nat := 3
def code : Nat := 4
def strike : Nat := 5
def link : Nat := 6
def image : Nat := 7
def autolink : Nat := 8
def escape : Nat := 9
def replacement : Nat := 10
def hardBreak : Nat := 11
def softBreak : Nat := 12
def htmlInline : Nat := 13
def footnoteRef : Nat := 14
def other : Nat := 16

end RunKind

/-! The named bits of a block's flags. -/

namespace BlockFlag

/-- A code block opened by a fence line rather than indented. -/
def fenced : Nat := 1 <<< 0
/-- A fenced code block closed by a fence line. -/
def closed : Nat := 1 <<< 1
/-- A list whose items are not separated by blank lines. -/
def tight : Nat := 1 <<< 0
/-- An ordered list. -/
def ordered : Nat := 1 <<< 1
/-- A task item. -/
def task : Nat := 1 <<< 0
/-- A task item that is checked. -/
def checked : Nat := 1 <<< 1
/-- A leaf that publishes no runs and displays its source. -/
def sourceOnly : Nat := 1 <<< 23

end BlockFlag

/-! The named bits of a run's flags. -/

namespace RunFlag

/-- A link or image written by reference. -/
def reference : Nat := 1 <<< 0
/-- A code run that displays from the string table rather than its source slice. -/
def displayFromStrings : Nat := 1 <<< 1
/-- A run that spans more than one line. -/
def spansLines : Nat := 1 <<< 2

end RunFlag

namespace TableAlignment

def none : Nat := 0
def left : Nat := 1
def right : Nat := 3

end TableAlignment

end Flark
