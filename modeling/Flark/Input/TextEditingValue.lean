import Flark.Text

/-!
# Platform values

What a platform's input method holds of a text field (`TextEditingValue` of the host's framework):
the text, the selection and the range it composes in.
-/

namespace Flark

/-- `TextRange`. -/
structure TextRange where
  start : Int
  stop : Int
  deriving DecidableEq, Repr

namespace TextRange

/-- No range. -/
def empty : TextRange := ⟨-1, -1⟩

def isValid (r : TextRange) : Bool := decide (0 ≤ r.start) && decide (0 ≤ r.stop)

def isCollapsed (r : TextRange) : Bool := r.start == r.stop

end TextRange

inductive TextAffinity
  | upstream
  | downstream
  deriving DecidableEq, Repr

/-- `TextSelection`. -/
structure TextSelection where
  baseOffset : Int
  extentOffset : Int
  affinity : TextAffinity := .downstream
  isDirectional : Bool := false
  deriving DecidableEq, Repr

namespace TextSelection

def collapsed (offset : Int) : TextSelection := { baseOffset := offset, extentOffset := offset }

variable (s s' : TextSelection)

def start : Int := if s.baseOffset < s.extentOffset then s.baseOffset else s.extentOffset

def stop : Int := if s.baseOffset < s.extentOffset then s.extentOffset else s.baseOffset

def isValid : Bool := decide (0 ≤ s.start) && decide (0 ≤ s.stop)

def isCollapsed : Bool := s.start == s.stop

/-- `==`: selections that are not valid are equal, and where the caret leans is compared where
    there is one. -/
def same : Bool :=
  if !s.isValid then !s'.isValid
  else s'.baseOffset == s.baseOffset && s'.extentOffset == s.extentOffset &&
    (!s.isCollapsed || s'.affinity == s.affinity) && s'.isDirectional == s.isDirectional

end TextSelection

/-- `TextEditingValue`. -/
structure TextEditingValue where
  text : Text
  selection : TextSelection
  composing : TextRange := .empty
  deriving DecidableEq

namespace TextEditingValue

/-- `==`. -/
def same (v v' : TextEditingValue) : Bool :=
  v'.text == v.text && v'.selection.same v.selection && v'.composing == v.composing

/-- The selection is a range of the text, and so is the composing range if there is one. -/
structure Within (v : TextEditingValue) : Prop where
  start : 0 ≤ v.selection.start
  stop : v.selection.stop ≤ v.text.length
  composing : v.composing.isValid = true →
    v.composing.start ≤ v.composing.stop ∧ v.composing.stop ≤ v.text.length

end TextEditingValue

namespace TextSelection

variable {s s' : TextSelection}

theorem start_le_stop (s : TextSelection) : s.start ≤ s.stop := by
  rw [start, stop]
  split <;> omega

theorem isValid_of_nonneg (h : 0 ≤ s.start) : s.isValid = true := by
  rw [isValid, decide_eq_true h, decide_eq_true (Int.le_trans h s.start_le_stop)]
  rfl

/-- Equal valid selections have the same ends. -/
theorem eq_of_same (h : s'.same s = true) (hs : s'.isValid = true) :
    s.baseOffset = s'.baseOffset ∧ s.extentOffset = s'.extentOffset := by
  rw [same, hs, Bool.not_true, if_neg Bool.false_ne_true] at h
  simp only [Bool.and_eq_true, beq_iff_eq] at h
  exact ⟨h.1.1.1, h.1.1.2⟩

theorem ends_of_same (h : s'.same s = true) (hs : s'.isValid = true) :
    s.start = s'.start ∧ s.stop = s'.stop := by
  obtain ⟨hbase, hextent⟩ := eq_of_same h hs
  rw [start, stop, start, stop, hbase, hextent]
  exact ⟨rfl, rfl⟩

end TextSelection

end Flark
