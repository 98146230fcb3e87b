import Flark.Lib.Entries
import Flark.Text
import Mathlib.Data.Rat.Floor

/-!
# Cell themes

`FlarkCellTheme` of `flark_fleury/theme.dart`: the styles and measures that the terminal host
lays a document out with. A theme is a value: the host builds one for every frame, and a
layout lends its lines to the next only where the two themes compare equal
(`FlarkCellTheme.same_iff`: then they are the same).

The cell styles and the width policies are those of `package:fleury`, whose values compare
equal with `==`; `Fleury` is what the host calls of it.
-/

namespace Flark

structure Rgb where
  r : Nat
  g : Nat
  b : Nat
  deriving DecidableEq, Inhabited

/-- The arguments of the constructor `CellStyle(...)`. -/
structure CellStyleArgs where
  background : Option Rgb := none
  bold : Option Bool := none
  dim : Option Bool := none
  italic : Option Bool := none
  underline : Option Bool := none
  inverse : Option Bool := none
  strikethrough : Option Bool := none
  deriving DecidableEq, Inhabited

/-- The part of `package:fleury` that a layout rests on. -/
structure Fleury (CellStyle CellWidthPolicy : Type) where
  /-- `CellStyle.none`. -/
  none : CellStyle
  style : CellStyleArgs → CellStyle
  /-- The first style under the second. -/
  merge : CellStyle → CellStyle → CellStyle
  /-- `background?.toRgb()` and `foreground?.toRgb()`. -/
  background : CellStyle → Option Rgb
  foreground : CellStyle → Option Rgb
  /-- The number of cells that a terminal gives a text. -/
  widthOfText : Text → CellWidthPolicy → Nat
  sanitizeForDisplay : Text → Text

/-- Presentation of one heading level. -/
structure FlarkHeadingStyle (CellStyle : Type) where
  style : CellStyle
  band : Bool := false
  divider : Bool := false
  showLevel : Bool := false
  deriving DecidableEq

/-- Presentation roles, the keys of a theme's code colours. -/
inductive CodeSyntaxRole
  | keyword
  | string
  | number
  | comment
  | function
  | variable
  deriving DecidableEq, Inhabited, Repr

/-- The role of a highlighter's scope name, or `none`. -/
def codeSyntaxRole : (kind : Option String) → Option CodeSyntaxRole
  | none => none
  | some kind =>
    if kind ∈ ["keyword", "selector-tag", "meta"] then some .keyword
    else if kind ∈ ["string", "regexp", "attr", "selector-attr"] then some .string
    else if kind ∈ ["number", "constant", "boolean", "literal", "built_in"] then some .number
    else if kind ∈ ["comment", "doctag"] then some .comment
    else if kind ∈ ["title", "function", "constructor", "type", "class"] then some .function
    else if kind ∈ ["variable", "property", "tag", "params", "attribute", "selector-class"] then
      some .variable
    else none

/-- A theme. (The host asserts that the measures are not negative; no layout depends on it.) -/
structure FlarkCellTheme (CellStyle : Type) where
  body : CellStyle
  heading : CellStyle
  headingBand : Option CellStyle
  headingDivider : CellStyle
  thematicBreak : CellStyle
  headingIndicator : CellStyle
  /-- Three cells beside the whole document for the levels of headings. -/
  headingGutter : Bool
  /-- Overrides keyed by level. -/
  headingStyles : Finmap fun _ : Int => FlarkHeadingStyle CellStyle
  marker : CellStyle
  quote : CellStyle
  link : CellStyle
  code : CellStyle
  codePadding : Rat
  codePaddingRows : Rat
  listIndent : Int
  quoteIndent : Int
  tableBorder : CellStyle
  tableHeader : CellStyle
  /-- Height of an image preview; zero keeps only the text. -/
  imagePreviewRows : Int
  selection : CellStyle
  caret : CellStyle
  /-- `syntax`, keyed by role. -/
  syntaxStyles : Finmap fun _ : CodeSyntaxRole => CellStyle

namespace FlarkCellTheme

section

variable {CellStyle CellWidthPolicy : Type} (fl : Fleury CellStyle CellWidthPolicy)

/-- The theme with the defaults of its constructor. -/
def standard : FlarkCellTheme CellStyle where
  body := fl.none
  heading := fl.style { bold := some true }
  headingBand := none
  headingDivider := fl.none
  thematicBreak := fl.none
  headingIndicator := fl.none
  headingGutter := false
  headingStyles := ∅
  marker := fl.none
  quote := fl.style { italic := some true }
  link := fl.style { underline := some true }
  code := fl.none
  codePadding := 2
  codePaddingRows := 0
  listIndent := 4
  quoteIndent := 2
  tableBorder := fl.none
  tableHeader := fl.style { bold := some true }
  imagePreviewRows := 8
  selection := fl.style { inverse := some true }
  caret := fl.style { inverse := some true }
  syntaxStyles := ∅

def defaultHeadingStyles : (level : Int) → Option (FlarkHeadingStyle CellStyle)
  | 1 => some { style := fl.none }
  | 2 => some { style := fl.none }
  | 3 => some { style := fl.style { italic := some true } }
  | 4 => some { style := fl.style { bold := some false, italic := some true } }
  | 5 => some { style := fl.style { bold := some false } }
  | 6 => some { style := fl.style { bold := some false, dim := some true } }
  | _ => none

variable (theme : FlarkCellTheme CellStyle)

def headingFor (level : Int) : FlarkHeadingStyle CellStyle :=
  (theme.headingStyles.lookup level).getD
    ((defaultHeadingStyles fl level).getD { style := fl.none })

/-- `mix` of two colour values. (The host computes it in floating point, far enough from a
    half for the rounding to be that of the exact value.) -/
def mix (a b : Nat) : Nat := (92 * a + 8 * b + 50) / 100

def headingSurface (level : Int) : CellStyle :=
  if !(theme.headingFor fl level).band then theme.body
  else
    match theme.headingBand with
    | some band => fl.merge theme.body band
    | none =>
      match fl.background theme.body, fl.foreground theme.body with
      | some bg, some fg =>
        let band : Rgb := ⟨mix bg.r fg.r, mix bg.g fg.g, mix bg.b fg.b⟩
        fl.merge theme.body (fl.style { background := some band })
      | _, _ => fl.merge theme.body (fl.style { inverse := some true })

/-- Text stays on whole cells, so that fractional values round up. -/
def codePaddingColumns : Int := theme.codePadding.ceil

end

/-! ## Equality -/

section

variable {CellStyle : Type} [DecidableEq CellStyle]

/-- `operator ==`. -/
def same (theme other : FlarkCellTheme CellStyle) : Bool :=
  other.body == theme.body &&
    other.heading == theme.heading &&
    other.headingBand == theme.headingBand &&
    other.headingDivider == theme.headingDivider &&
    other.thematicBreak == theme.thematicBreak &&
    other.headingIndicator == theme.headingIndicator &&
    other.headingGutter == theme.headingGutter &&
    Entries.length other.headingStyles == Entries.length theme.headingStyles &&
    decide (Entries.Covers other.headingStyles theme.headingStyles) &&
    other.marker == theme.marker &&
    other.quote == theme.quote &&
    other.link == theme.link &&
    other.code == theme.code &&
    other.codePadding == theme.codePadding &&
    other.codePaddingRows == theme.codePaddingRows &&
    other.listIndent == theme.listIndent &&
    other.quoteIndent == theme.quoteIndent &&
    other.tableBorder == theme.tableBorder &&
    other.tableHeader == theme.tableHeader &&
    other.imagePreviewRows == theme.imagePreviewRows &&
    other.selection == theme.selection &&
    other.caret == theme.caret &&
    (Entries.length other.syntaxStyles == Entries.length theme.syntaxStyles &&
      decide (Entries.Covers other.syntaxStyles theme.syntaxStyles))

/-- Themes that compare equal are the same theme: every field is compared, and the maps by
    their entries. -/
theorem same_iff {theme other : FlarkCellTheme CellStyle} : theme.same other ↔ other = theme := by
  obtain ⟨⟩ := theme
  obtain ⟨⟩ := other
  simp only [same, Bool.and_eq_true, beq_iff_eq, decide_eq_true_eq, mk.injEq,
    Entries.eq_iff_covers, and_assoc]

end

end FlarkCellTheme

end Flark
