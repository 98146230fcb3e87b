import Flark.Lib.Bisect
import Flark.Lib.Packing
import Flark.Lib.Intervals
import Flark.Lib.Leaps
import Flark.Lib.Inward
import Flark.Lib.Worklist
import Flark.Lib.Window
import Flark.Lib.Scan
import Flark.Lib.Squeeze
import Flark.Lib.Agree
import Flark.Lib.Widening
import Flark.Lib.Tokens
import Flark.Lib.Tiling
import Flark.Lib.Fronts
import Flark.Lib.Answers
import Flark.Lib.Spelled
import Flark.Lib.Matching
import Flark.Native.Encode
import Flark.Native.Pieces
import Flark.Native.Pipes
import Flark.Native.Innermost
import Flark.Native.Explains
import Flark.Native.FitContainers
import Flark.Native.Expand
import Flark.Native.BufferDefinitions
import Flark.Parse.ExpandedRuns
import Flark.Native.SettleInlines
import Flark.Native.Lines
import Flark.Native.Structure
import Flark.Parse.RenderModel
import Flark.Parse.RoundTrip
import Flark.Kernel.HiddenText
import Flark.Kernel.History
import Flark.Kernel.Edits
import Flark.Kernel.Recorder
import Flark.Kernel.Composition
import Flark.Kernel.CodeFence
import Flark.Kernel.CodeBody
import Flark.Kernel.CodeEditing
import Flark.Kernel.Return
import Flark.Kernel.Reuse
import Flark.Kernel.Legality
import Flark.Kernel.Painting
import Flark.Kernel.Positions
import Flark.Kernel.Placement
import Flark.Kernel.Legalize
import Flark.Kernel.InlineText
import Flark.Kernel.InlineEdges
import Flark.Kernel.DisplayOrder
import Flark.Kernel.Anchors
import Flark.Kernel.WordMoves
import Flark.Kernel.Editor
import Flark.Kernel.SetStyle
import Flark.Kernel.ShiftLine
import Flark.Kernel.Spellings
import Flark.Kernel.HiddenIntervals
import Flark.Kernel.Emptying
import Flark.Kernel.Press
import Flark.Cells.CellLayout
import Flark.Cells.Wrapping
import Flark.Cells.CellHits
import Flark.Cells.CellPositions
import Flark.Input.LineBreaks
import Flark.Input.Receive
import Flark.Session.SharedBackend
import Flark.Session.FlarkSession
import Flark.Session.FlarkReader
import Flark.CodeMirror.Mode
import Flark.CodeMirror.Highlight
import Flark.CodeMirror.TypeArguments
import Flark.CodeMirror.Shift
import Flark.Kernel.Insertions
import Flark.Native.Columns
import Flark.Kernel.ShiftBlock
import Flark.View.SourceWindow
import Flark.Kernel.HistorySteps
import Flark.Kernel.ReadDocument
import Flark.Previews.ImagePreview
import Flark.Parse.FfiBackend
