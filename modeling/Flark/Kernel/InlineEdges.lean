import Flark.Kernel.Caret
import Flark.Kernel.History
import Flark.Kernel.InlineText
import Flark.Kernel.Legalize
import Flark.Lib.Inward

/-!
# Inline edges

An edit can leave white space at the edge of emphasized text, where its delimiters would no longer
be read: they are moved past it before the next parse (`_normalizeInlineEdges` of
`kernel/editor.dart`), the delimiters as brackets of `Flark.Lib.Inward`. Behind a line break the
opening delimiter goes on to the caret start of the next line.

The source finds that line from a place in the new text taken back to the old source
(`first + removed`), also where the place is in the inserted text: there the caret start found can
be further on, past inserted text that is no white space.

* `Document.ownersAt`, `Document.normalizeInlineEdges`: as the source has them;
* `Document.MovesDelimiters`: what the function is for;
* `Document.PassesSpace`: that no line feed inserted at the start of a content carries the delimiter
  past inserted text;
* `Document.movesDelimiters_iff`: the function does what it is for exactly then.
-/

namespace Flark

open Inward

/-! ## Owners -/

/-- `Owner`: a run whose delimiters enclose its content. -/
structure Owner where
  run : Nat
  kind : Nat
  start : Nat
  stop : Nat
  contentStart : Nat
  contentEnd : Nat
  deriving DecidableEq, Repr

namespace Owner

def style (o : Owner) : Nat :=
  if o.kind = RunKind.emph then Style.emphasis
  else if o.kind = RunKind.strong then Style.strong
  else if o.kind = RunKind.strike then Style.strikethrough
  else if o.kind = RunKind.code then Style.code
  else if o.kind = RunKind.link then Style.link
  else if o.kind = RunKind.image then Style.image
  else 0

/-- The kinds of owner whose delimiters white space cannot be next to. -/
def isEmphasis (o : Owner) : Bool :=
  o.kind == RunKind.emph || o.kind == RunKind.strong || o.kind == RunKind.strike

/-- The delimiters in a text that lacks `removed` units before the end of the content. -/
def bracket (o : Owner) (removed : Int) : Bracket :=
  ⟨o.start, o.contentStart, (o.contentEnd - removed).toNat, (o.stop - removed).toNat⟩

end Owner

/-- `_owns`. -/
def owns (kind : Nat) : Bool :=
  kind == RunKind.emph || kind == RunKind.strong || kind == RunKind.strike ||
    kind == RunKind.code || kind == RunKind.link || kind == RunKind.image || kind == RunKind.escape

/-- `_owner`. -/
def RenderModel.owner (m : RenderModel) (r : Nat) : Owner :=
  ⟨r, m.runKind r, m.runStart r, m.runEnd r, m.runContentStart r, m.runContentEnd r⟩

/-- The line break that the loop looks for. -/
def isFeed (u : UInt16) : Bool := u == 0x0A

/-! ## Lines of a row -/

namespace ProjectedRow

variable (row : ProjectedRow)

/-- `lineIndexOf`. -/
def lineIndexOf (m : RenderModel) (offset : Int) : Int := m.lineAt offset - row.firstLine

/-- `_endsLine`: the line feed at a display offset is not one that a replacement displays. -/
def endsLine (k : Nat) : Bool :=
  let lo := Bisect.bisectFirst (fun mid => decide ((row.segments.getD mid default).displayEnd ≤ k)) 0
    row.segments.length
  match row.segments[lo]? with
  | none => true
  | some s => s.exact || s.lineBreak

/-- `displayLineAt(d).$1`: the search back for a line feed that ends a line. -/
def displayLineStart : (d : Nat) → Nat
  | 0 => 0
  | k + 1 =>
    if row.text.codeUnitAt k = 0x0A ∧ row.endsLine k then k + 1 else displayLineStart k

/-- The caret start of the line that holds a source offset, where the row has that line; it is -1
    where the row cannot show it. -/
def caretStartAt (m : RenderModel) (offset : Int) : Option Int :=
  let l := row.lineIndexOf m offset
  if 0 ≤ l ∧ l < row.lineCount then some (row.contentStarts.getD l.toNat (-1)) else none

end ProjectedRow

namespace Document

variable (gs : Graphemes) (d : Document)

/-- `_runsOf`: the runs of the leaf block that a row projects. -/
def runsOfRow (row : ProjectedRow) : Nat × Nat :=
  if row.block < 0 then (0, 0)
  else (d.model.firstRunOfBlock row.block.toNat, d.model.firstRunOfBlock (row.block.toNat + 1))

/-- `_runsNear`. The host throws where no row holds an offset. -/
def runsNear (offset : Int) : Nat × Nat := ((d.rowAt gs offset).map d.runsOfRow).getD (0, 0)

/-- `ownersAt`: the styled owners whose content has the offset, its edges included, outermost
    first. -/
def ownersAt (offset : Int) : List Owner :=
  let (first, stop) := d.runsNear gs offset
  ((List.range' first (stop - first)).filter fun r =>
    owns (d.model.runKind r) && d.model.runKind r != RunKind.escape &&
      decide ((d.model.runContentStart r : Int) ≤ offset) &&
      decide (offset ≤ d.model.runContentEnd r)).map d.model.owner

/-! ## Moving the delimiters -/

/-- The caret start of the line that an offset is on, in the row of an owner. -/
def edgeStart (row : Option ProjectedRow) (offset : Int) : Option Int :=
  row.bind fun row => row.caretStartAt d.model offset

/-- Where the opening delimiter goes on behind a line break, in the new text. -/
def resumeOf (row : Option ProjectedRow) (removed : Int) (first : Nat) : Int :=
  ((d.edgeStart row (first + removed)).map (· - removed)).getD (-1)

end Document

/-- What an edit is normalized to. -/
structure NormalizedEdit where
  text : Text
  caret : Int
  pending : Option PendingStyle
  deriving DecidableEq

namespace Document

variable (gs : Graphemes) (d : Document)

/-- Where the caret goes when a delimiter is moved, and whether it left the owner. -/
def escapeCaret (o : Owner) (b : Bracket) (first last : Nat) (caret : Int) : Int × Bool :=
  if b.contentStart < first ∧ (b.contentStart : Int) ≤ caret ∧ caret ≤ first then
    let at_ := d.displayOf gs o.start
    if caret < first ∧ (d.projection.rows[at_.row]?).any fun ownerRow =>
        decide ((ownerRow.displayLineStart at_.offset.toNat : Int) < at_.offset) then
      (o.start + (caret - b.contentStart), true)
    else (first, false)
  else if last < b.contentEnd ∧ (last : Int) ≤ caret ∧ caret ≤ b.contentEnd then
    (caret + (b.stop - b.contentEnd : Nat), true)
  else (caret, false)

/-- One turn of the loop over the owners, innermost first. -/
def normalizeOwner (removed : Int) (intent : List Nat) (st : NormalizedEdit) (o : Owner) :
    NormalizedEdit :=
  let b := o.bracket removed
  let (first, last) := edges Text.isWordSpace isFeed
    (d.resumeOf (d.rowAt gs o.start) removed) b st.text
  if first = last ∨ first = b.contentStart ∧ last = b.contentEnd then st
  else
    let opening := slice st.text b.start b.contentStart
    let closing := slice st.text b.contentEnd b.stop
    let (caret, escaped) := d.escapeCaret gs o b first last st.caret
    { text := inward st.text b first last
      caret
      pending :=
        if escaped ∧ o.run ∈ intent then
          some ⟨opening ++ ((st.pending.map PendingStyle.opening).getD []),
            ((st.pending.map PendingStyle.closing).getD []) ++ closing,
            ((st.pending.map PendingStyle.styles).getD 0) ||| o.style, true⟩
        else st.pending }

/-- The emphasis, strong and strikethrough owners that hold a range, outermost first. -/
def sharedOwners (start stop : Nat) : List Owner :=
  (d.ownersAt gs start).filter fun o => decide (stop ≤ o.contentEnd) && o.isEmphasis

/-- `_normalizeInlineEdges`. -/
def normalizeInlineEdges (start stop : Nat) (inserted : Text) (caret : Int)
    (pending : Option PendingStyle) : NormalizedEdit :=
  let removed : Int := (stop : Int) - start - inserted.length
  let intent := (d.ownersAt gs d.selection.extent).map Owner.run
  (d.sharedOwners gs start stop).reverse.foldl (d.normalizeOwner gs removed intent)
    ⟨d.source.replaceRange start stop inserted, caret, pending⟩

/-! ## The places -/

end Document

/-- White space at a place of a text. -/
def spaceAt (text : Text) (i : Nat) : Bool := Text.isWordSpace (text.codeUnitAt i)

/-- A line break at a place of a text. -/
def feedAt (text : Text) (i : Nat) : Bool := isFeed (text.codeUnitAt i)

/-- A text is its units read place by place. -/
theorem map_range_codeUnitAt (text : Text) :
    (List.range text.length).map (fun i : Nat => text.codeUnitAt i) = text := by
  refine List.ext_getElem (by rw [List.length_map, List.length_range]) fun i hi hi' => ?_
  rw [List.getElem_map, List.getElem_range, Text.codeUnitAt, Int.toNat_natCast,
    List.getD_eq_getElem?_getD, List.getElem?_eq_getElem hi', Option.getD_some]

/-- A line feed is space. -/
theorem space_of_feedAt {text : Text} {i : Nat} (h : feedAt text i = true) : spaceAt text i = true := by
  rw [feedAt, isFeed, beq_iff_eq] at h
  rw [spaceAt, h]
  rfl

namespace Document

variable (gs : Graphemes) (d : Document) (start stop : Nat) (inserted : Text)

/-- What the edit removes, less what it inserts. -/
def removed : Int := (stop : Int) - start - inserted.length

/-- The text with the edit. -/
abbrev spliced : Text := d.source.replaceRange start stop inserted

/-- Where an opening delimiter that holds the range goes on behind a line break. -/
abbrev edgeResume : Nat → Int := d.resumeOf (d.rowAt gs start) (removed start stop inserted)

/-- The delimiters that hold the range, in the edited text, innermost first. -/
def edgeBrackets : List Bracket :=
  (d.sharedOwners gs start stop).reverse.map fun o => o.bracket (removed start stop inserted)

/-- The places of the edited text, in the order that the delimiters leave them in. -/
def edgePlaces : List Nat :=
  let text := d.spliced start stop inserted
  pushAll (spaceAt text) (feedAt text) (d.edgeResume gs start stop inserted)
    (d.edgeBrackets gs start stop inserted) (List.range text.length)

variable {gs d start stop inserted}

/-- The turn of an owner pushes its bracket. -/
theorem text_normalizeOwner (removed : Int) (intent : List Nat) (st : NormalizedEdit) (o : Owner) :
    (d.normalizeOwner gs removed intent st o).text = push Text.isWordSpace isFeed
      (d.resumeOf (d.rowAt gs o.start) removed) (o.bracket removed) st.text := by
  rw [normalizeOwner, push]
  dsimp only
  split <;> rfl

/-- The turns of owners in one row push their brackets. -/
theorem text_foldl_normalizeOwner {row : Option ProjectedRow} (removed : Int) (intent : List Nat)
    {owners : List Owner} (hrow : ∀ o ∈ owners, d.rowAt gs o.start = row) (st : NormalizedEdit) :
    (owners.foldl (d.normalizeOwner gs removed intent) st).text = pushAll Text.isWordSpace isFeed
      (d.resumeOf row removed) (owners.map fun o => o.bracket removed) st.text := by
  induction owners generalizing st with
  | nil => rfl
  | cons o owners ih =>
    obtain ⟨ho, hrest⟩ := List.forall_mem_cons.1 hrow
    rw [List.foldl_cons, ih hrest, text_normalizeOwner, ho]
    rfl

/-- The text is the edited text in the order of the places. -/
theorem text_normalizeInlineEdges
    (hrow : ∀ o ∈ d.sharedOwners gs start stop, d.rowAt gs o.start = d.rowAt gs start) (caret : Int)
    (pending : Option PendingStyle) :
    (d.normalizeInlineEdges gs start stop inserted caret pending).text =
      (d.edgePlaces gs start stop inserted).map fun i : Nat =>
        (d.spliced start stop inserted).codeUnitAt i := by
  rw [normalizeInlineEdges, edgePlaces, text_foldl_normalizeOwner _ _ fun o ho => hrow o (List.mem_reverse.1 ho)]
  conv_lhs => rw [← map_range_codeUnitAt (d.source.replaceRange start stop inserted)]
  exact map_pushAll _ _ _

/-! ## The caret -/

/-- The caret that leaves a bracket stays in the text. -/
theorem escapeCaret_le {o : Owner} {b : Bracket} {first last n : Nat} (h : b.Fits first last n)
    (hstart : b.start = o.start) {caret : Int} (hnonneg : 0 ≤ caret) (hle : caret ≤ n) :
    0 ≤ (d.escapeCaret gs o b first last caret).1 ∧ (d.escapeCaret gs o b first last caret).1 ≤ n := by
  obtain ⟨hcontent, hfirst, hfirst_le, hlast, hstop, hn⟩ := h
  rw [escapeCaret]
  dsimp only
  split_ifs with hlead hshown htrail
  · omega
  · omega
  · obtain ⟨-, -, hend⟩ := htrail
    omega
  · exact ⟨hnonneg, hle⟩

/-- The turn of an owner keeps the length. -/
theorem length_normalizeOwner {removed : Int} {intent : List Nat} {st : NormalizedEdit} {o : Owner}
    (h : (o.bracket removed).Sound st.text.length) :
    (d.normalizeOwner gs removed intent st o).text.length = st.text.length := by
  rw [text_normalizeOwner]
  rcases push_cases Text.isWordSpace isFeed (d.resumeOf (d.rowAt gs o.start) removed)
    (o.bracket removed) st.text with heq | ⟨-, heq⟩
  · rw [heq]
  · rw [heq]
    exact (perm_inward (fits_edges h)).length_eq

/-- The turn of an owner leaves the caret in the text. -/
theorem caret_normalizeOwner {removed : Int} {intent : List Nat} {st : NormalizedEdit} {o : Owner}
    (h : (o.bracket removed).Sound st.text.length) (hnonneg : 0 ≤ st.caret)
    (hle : st.caret ≤ st.text.length) :
    0 ≤ (d.normalizeOwner gs removed intent st o).caret ∧
      (d.normalizeOwner gs removed intent st o).caret ≤
        (d.normalizeOwner gs removed intent st o).text.length := by
  rw [length_normalizeOwner h, normalizeOwner]
  dsimp only
  split
  · exact ⟨hnonneg, hle⟩
  · exact escapeCaret_le (fits_edges h) rfl hnonneg hle

/-- The caret stays in the text over all turns. -/
theorem caret_foldl_normalizeOwner {removed : Int} {intent : List Nat} {owners : List Owner}
    {st : NormalizedEdit} (h : ∀ o ∈ owners, (o.bracket removed).Sound st.text.length)
    (hnonneg : 0 ≤ st.caret) (hle : st.caret ≤ st.text.length) :
    0 ≤ (owners.foldl (d.normalizeOwner gs removed intent) st).caret ∧
      (owners.foldl (d.normalizeOwner gs removed intent) st).caret ≤
        (owners.foldl (d.normalizeOwner gs removed intent) st).text.length := by
  induction owners generalizing st with
  | nil => exact ⟨hnonneg, hle⟩
  | cons o owners ih =>
    obtain ⟨ho, hrest⟩ := List.forall_mem_cons.1 h
    obtain ⟨hnonneg', hle'⟩ := caret_normalizeOwner ho hnonneg hle
    refine ih (fun o' ho' => ?_) hnonneg' hle'
    rw [length_normalizeOwner ho]
    exact hrest o' ho'

/-! ## Where a walk resumes -/

/-- All places up to a caret start are on its line. -/
theorem edgeStart_const (hd : d.Live gs) {offset x y c : Int}
    (h : d.edgeStart (d.rowAt gs offset) x = some c) (hxy : x ≤ y) (hyc : y ≤ c) :
    d.edgeStart (d.rowAt gs offset) y = some c := by
  obtain ⟨row, hrow, hc⟩ := Option.bind_eq_some_iff.1 h
  have hmem : row ∈ d.projection.rows := List.mem_of_getElem? hrow
  rw [edgeStart, hrow, Option.bind_some]
  rw [ProjectedRow.caretStartAt] at hc ⊢
  have htable := hd.conforms.table
  have hline : d.model.lineAt y = d.model.lineAt x := by
    split at hc
    · next hl =>
      rcases lt_or_ge c 0 with hneg | hnonneg
      · -- Before the source every place is on its first line.
        rw [RenderModel.lineAt, RenderModel.lineAt, Int.toNat_of_nonpos (by omega),
          Int.toNat_of_nonpos (by omega)]
      · have hlists := (hd.built.shape hd.conforms row hmem).lines
        have honline := hlists.onLine (row.lineIndexOf d.model x).toNat
        rw [Option.some_inj.1 hc] at honline
        have hat : d.model.lineAt c = (row.firstLine + (row.lineIndexOf d.model x).toNat : Nat) :=
          honline hnonneg c le_rfl (le_max_left _ _)
        have hlow := htable.lineAt_mono hxy
        have hhigh := htable.lineAt_mono hyc
        rw [ProjectedRow.lineIndexOf] at hl hat
        omega
    · cases hc
  rw [ProjectedRow.lineIndexOf, hline]
  exact hc

/-- A line resumes behind its break. -/
theorem resumes_resumeOf (hd : d.Live gs) (offset removed : Int) :
    Resumes (d.resumeOf (d.rowAt gs offset) removed) := by
  have hconst : ∀ f g : Nat, f ≤ g → (g : Int) ≤ d.resumeOf (d.rowAt gs offset) removed f →
      d.resumeOf (d.rowAt gs offset) removed g = d.resumeOf (d.rowAt gs offset) removed f := by
    intro f g hfg hg
    rw [resumeOf] at hg ⊢
    rw [resumeOf]
    rcases h : d.edgeStart (d.rowAt gs offset) (f + removed) with _ | c
    · rw [h, Option.map_none, Option.getD_none] at hg
      omega
    · rw [h, Option.map_some, Option.getD_some] at hg
      rw [edgeStart_const hd h (by omega) (show (g : Int) + removed ≤ c by omega)]
  refine ⟨hconst, fun f g hfg => ?_⟩
  rcases le_or_gt (g : Int) (d.resumeOf (d.rowAt gs offset) removed f) with hle | hlt
  · rw [hconst f g hfg hle]
    exact le_max_left _ _
  · exact hlt.le.trans (le_max_right _ _)

/-! ## The owners in the edited text -/

variable (gs d start stop) in
/-- What the parser gives of the emphasis that holds a range: each owner holds the next one in its
    content, in one row; no delimiter is white space, nor is what is next to it in the content, and
    the end of the content is not in a container prefix. -/
structure EdgesConform : Prop where
  counted : ∀ o ∈ d.sharedOwners gs start stop, o.run < d.model.runCount
  row : ∀ o ∈ d.sharedOwners gs start stop, d.rowAt gs o.start = d.rowAt gs start
  nested : (d.sharedOwners gs start stop).Pairwise fun p o =>
    p.contentStart ≤ o.start ∧ o.stop ≤ p.contentEnd
  delimiter : ∀ o ∈ d.sharedOwners gs start stop, o.start < o.contentStart
  opening : ∀ o ∈ d.sharedOwners gs start stop, ∀ i, o.start ≤ i → i ≤ o.contentStart →
    spaceAt d.source i = false
  closing : ∀ o ∈ d.sharedOwners gs start stop, spaceAt d.source (o.contentEnd - 1) = false
  last : ∀ o ∈ d.sharedOwners gs start stop,
    ∀ c ∈ d.edgeStart (d.rowAt gs start) ((o.contentEnd : Int) - 1), c < o.contentEnd

/-- A shared owner is one whose content the edited range is in. -/
theorem mem_sharedOwners {o : Owner} (h : o ∈ d.sharedOwners gs start stop) :
    o = d.model.owner o.run ∧ o.contentStart ≤ start ∧ stop ≤ o.contentEnd := by
  rw [sharedOwners, List.mem_filter, Bool.and_eq_true_iff, decide_eq_true_eq] at h
  obtain ⟨hat, hstop, -⟩ := h
  obtain ⟨r, hr, rfl⟩ := List.mem_map.1 hat
  obtain ⟨-, hr⟩ := List.mem_filter.1 hr
  simp only [Bool.and_eq_true_iff, decide_eq_true_eq] at hr
  exact ⟨rfl, Int.ofNat_le.1 hr.1.2, hstop⟩

section

variable (hstop : start ≤ stop) (hlength : stop ≤ d.source.length)

include hstop hlength

/-- The text after the splice is longer by what is inserted, less what is replaced. -/
theorem length_spliced : ((d.spliced start stop inserted).length : Int) =
    d.source.length - removed start stop inserted := by
  rw [Text.length_replaceRange (hstop.trans hlength), removed]
  omega

/-- In front of the splice the text is the source. -/
theorem codeUnitAt_before {i : Nat} (hi : i < start) :
    (d.spliced start stop inserted).codeUnitAt i = d.source.codeUnitAt i :=
  Text.codeUnitAt_replaceRange_before hi (hstop.trans hlength)

/-- In the splice the text is what is inserted. -/
theorem codeUnitAt_inserted {k : Nat} (hk : k < inserted.length) :
    (d.spliced start stop inserted).codeUnitAt (start + k : Nat) = inserted.codeUnitAt k :=
  Text.codeUnitAt_replaceRange_inserted hk (hstop.trans hlength)

/-- Behind the splice the text is the source. -/
theorem codeUnitAt_behind {i : Nat} (hi : stop ≤ i) :
    (d.spliced start stop inserted).codeUnitAt (start + inserted.length + (i - stop) : Nat) =
      d.source.codeUnitAt i :=
  Text.codeUnitAt_replaceRange_behind hi (hstop.trans hlength)

variable (hd : d.Live gs) (hc : d.EdgesConform gs start stop)

include hd hc

/-- A shared owner's bracket lies around what is inserted. -/
theorem around_bracket {o : Owner} (ho : o ∈ d.sharedOwners gs start stop) {lo hi : Nat}
    (hlo : o.contentStart ≤ lo) (hstart : lo ≤ start) (hle : lo ≤ hi)
    (hhi : hi ≤ (o.bracket (removed start stop inserted)).contentEnd) :
    (o.bracket (removed start stop inserted)).Around
      (spaceAt (d.spliced start stop inserted))
      (d.edgeResume gs start stop inserted) lo hi := by
  obtain ⟨howner, hcontent, hend⟩ := mem_sharedOwners ho
  have hrange := hd.conforms.runRange o.run (hc.counted o ho)
  have hce : o.contentEnd = d.model.runContentEnd o.run := congrArg Owner.contentEnd howner
  have hs : o.stop = d.model.runEnd o.run := congrArg Owner.stop howner
  have hspace : ∀ i, o.start ≤ i → i ≤ o.contentStart → i < start →
      spaceAt (d.spliced start stop inserted) i = false := by
    intro i hi hi' hlt
    rw [spaceAt, codeUnitAt_before hstop hlength hlt]
    exact hc.opening o ho i hi hi'
  refine ⟨hc.delimiter o ho, hlo, hle, hhi, Int.toNat_le_toNat (by omega),
    fun i hi => hspace i hi.1 hi.2.le (hi.2.trans_le hcontent),
    fun hlt => hspace _ (hc.delimiter o ho).le le_rfl (hlt.trans_le hstart), fun g hg => ?_⟩
  rw [Owner.bracket] at hg ⊢
  dsimp only at hg ⊢
  rw [edgeResume, resumeOf]
  rcases h : d.edgeStart (d.rowAt gs start) (g + removed start stop inserted) with _ | c
  · rw [Option.map_none, Option.getD_none]
    omega
  · rw [Option.map_some, Option.getD_some]
    by_contra hge
    -- A caret start behind the content would be on the line that the content ends on.
    have hlast := edgeStart_const hd h (y := (o.contentEnd : Int) - 1) (by omega) (by omega)
    have := hc.last o ho c hlast
    omega

/-- The brackets are around what is inserted, from the innermost outward. -/
theorem nested_brackets {owners : List Owner} (hsub : ∀ o ∈ owners, o ∈ d.sharedOwners gs start stop)
    (hnested : owners.Pairwise fun o p => p.contentStart ≤ o.start ∧ o.stop ≤ p.contentEnd)
    {lo hi : Nat} (hstart : lo ≤ start) (hle : lo ≤ hi)
    (hlo : ∀ o ∈ owners, o.contentStart ≤ lo ∧
      hi ≤ (o.bracket (removed start stop inserted)).contentEnd)
    (hhi : hi ≤ (d.spliced start stop inserted).length) :
    Nested (spaceAt (d.spliced start stop inserted))
      (d.edgeResume gs start stop inserted)
      (d.spliced start stop inserted).length lo hi
      (owners.map fun o => o.bracket (removed start stop inserted)) := by
  induction owners generalizing lo hi with
  | nil => exact hhi
  | cons o owners ih =>
    obtain ⟨ho, hrest⟩ := List.forall_mem_cons.1 hsub
    obtain ⟨hout, hpairs⟩ := List.pairwise_cons.1 hnested
    obtain ⟨hcs, hce⟩ := hlo o List.mem_cons_self
    obtain ⟨howner, hcontent, hend⟩ := mem_sharedOwners ho
    have hrange := hd.conforms.runRange o.run (hc.counted o ho)
    have hs : o.stop = d.model.runEnd o.run := congrArg Owner.stop howner
    have hlen : ((d.spliced start stop inserted).length : Int) = _ :=
      length_spliced hstop hlength
    have haround := around_bracket hstop hlength hd hc ho hcs hstart hle hce
    have hdelimiter := hc.delimiter o ho
    refine ⟨haround, ih hrest hpairs ?_ ?_ (fun p hp => ⟨(hout p hp).1, ?_⟩) ?_⟩
    · exact hdelimiter.le.trans (hcs.trans hstart)
    · exact hdelimiter.le.trans (hcs.trans (hle.trans (hce.trans haround.le_stop)))
    · exact Int.toNat_le_toNat (by have := (hout p hp).2; omega)
    · exact Int.toNat_le.2 (by omega)

end

/-! ## What is moved past what -/

variable (gs d start stop inserted)

/-- A place behind the inserted text that the old source has before the caret start of its line. -/
def InPrefix (i : Nat) : Prop :=
  start + inserted.length ≤ i ∧
    ∃ c ∈ d.edgeStart (d.rowAt gs start) (i + removed start stop inserted),
      (i : Int) + removed start stop inserted < c

/-- What an opening delimiter may be moved past: white space and container prefixes. -/
def Passable (i : Nat) : Prop :=
  spaceAt (d.spliced start stop inserted) i = true ∨ d.InPrefix gs start stop inserted i

/-- Taken back to the old source as the loop does it, unit `k` of the inserted text is before the
    caret start of the line on which the place behind the line feed at `q` is. -/
def Overruns (q k : Nat) : Prop :=
  feedAt inserted q = true ∧
    ∃ c ∈ d.edgeStart (d.rowAt gs start) ((start + (q + 1) : Nat) + removed start stop inserted),
      ((start + k : Nat) : Int) + removed start stop inserted < c

/-- No line feed in the white space that the inserted text starts with overruns text. -/
def SparesText : Prop := ∀ k < inserted.length, ∀ q < k, (∀ i ≤ q, spaceAt inserted i = true) →
  d.Overruns gs start stop inserted q k → spaceAt inserted k = true

/-- The inserted text is all that an owner's content has from the edit on, and what no line feed
    overruns in it is white space: nothing of it would remain, and no delimiter moves. -/
def LeavesNothing (o : Owner) : Prop := o.contentEnd = stop ∧ ∀ k < inserted.length,
  spaceAt inserted k = true ∨ ∃ q < k, d.Overruns gs start stop inserted q k

/-- Where the innermost owner's content starts with the edit, the inserted text spares text or leaves
    nothing. -/
def PassesSpace : Prop := ∀ o ∈ (d.sharedOwners gs start stop).getLast?, o.contentStart = start →
  d.SparesText gs start stop inserted ∨ d.LeavesNothing gs start stop inserted o

instance (i : Nat) : Decidable (d.InPrefix gs start stop inserted i) :=
  inferInstanceAs (Decidable (_ ∧ ∃ c ∈ d.edgeStart _ _, _ < c))

instance (i : Nat) : Decidable (d.Passable gs start stop inserted i) :=
  inferInstanceAs (Decidable (spaceAt _ i = true ∨ d.InPrefix _ _ _ _ i))

instance (q k : Nat) : Decidable (d.Overruns gs start stop inserted q k) :=
  inferInstanceAs (Decidable (_ ∧ ∃ c ∈ d.edgeStart _ _, _ < c))

instance : Decidable (d.SparesText gs start stop inserted) :=
  inferInstanceAs (Decidable (∀ k < _, ∀ q < k, (∀ i ≤ q, spaceAt _ i = true) →
    d.Overruns _ _ _ _ q k → spaceAt _ k = true))

instance (o : Owner) : Decidable (d.LeavesNothing gs start stop inserted o) :=
  inferInstanceAs (Decidable (_ ∧ ∀ k < _, spaceAt _ k = true ∨ ∃ q < k, d.Overruns _ _ _ _ q k))

instance : Decidable (d.PassesSpace gs start stop inserted) :=
  inferInstanceAs (Decidable (∀ o ∈ List.getLast? _, Owner.contentStart o = _ → _ ∨ _))

/-- What `normalizeInlineEdges` is for: only delimiters move, the opening ones to the right past what
    they may and past inner opening ones, the closing ones to the left past white space. -/
structure MovesDelimiters (caret : Int) (result : NormalizedEdit) : Prop where
  length : result.text.length = (d.spliced start stop inserted).length
  outside : ∀ o ∈ (d.sharedOwners gs start stop).head?, ∀ i,
    i < o.start ∨ (o.bracket (removed start stop inserted)).stop ≤ i →
      result.text[i]? = (d.spliced start stop inserted)[i]?
  unowned : d.sharedOwners gs start stop = [] →
    result.text = d.spliced start stop inserted
  places : result.text = (d.edgePlaces gs start stop inserted).map fun i : Nat =>
    (d.spliced start stop inserted).codeUnitAt i
  perm : (d.edgePlaces gs start stop inserted).Perm
    (List.range (d.spliced start stop inserted).length)
  kept : (d.edgePlaces gs start stop inserted).filter (fun i =>
      decide (∀ b ∈ d.edgeBrackets gs start stop inserted, ¬(b.Opening i ∨ b.Closing i))) =
    (List.range (d.spliced start stop inserted).length).filter fun i =>
      decide (∀ b ∈ d.edgeBrackets gs start stop inserted, ¬(b.Opening i ∨ b.Closing i))
  stands : (d.edgePlaces gs start stop inserted).Pairwise
    (Stands (spaceAt (d.spliced start stop inserted))
      (d.Passable gs start stop inserted) (d.edgeBrackets gs start stop inserted))
  caret : 0 ≤ caret → caret ≤ (d.spliced start stop inserted).length →
    0 ≤ result.caret ∧ result.caret ≤ result.text.length

variable {gs d start stop inserted}

/-- A place is in front of where the next line resumes if it is in its prefix in the source. -/
theorem lt_resumeOf_iff {row : Option ProjectedRow} {removed : Int} {i g : Nat} :
    (i : Int) < d.resumeOf row removed g ↔
      ∃ c ∈ d.edgeStart row (g + removed), (i : Int) + removed < c := by
  rw [resumeOf]
  rcases d.edgeStart row (g + removed) with _ | c
  · simp only [Option.map_none, Option.getD_none, Option.mem_def, reduceCtorEq, false_and,
      exists_false, iff_false, not_lt]
    omega
  · simp only [Option.map_some, Option.getD_some, Option.mem_def, Option.some_inj, exists_eq_left',
      lt_sub_iff_add_lt]

/-- The search for a line's start goes into the inserted text where a prefix of the source is as
    long. -/
theorem overruns_iff {q k : Nat} : d.Overruns gs start stop inserted q k ↔
    feedAt inserted q = true ∧ ((start + k : Nat) : Int) <
      d.edgeResume gs start stop inserted (start + (q + 1)) := by
  rw [Overruns, lt_resumeOf_iff]

section

variable (hstop : start ≤ stop) (hlength : stop ≤ d.source.length)

include hstop hlength

theorem spaceAt_inserted {k : Nat} (hk : k < inserted.length) :
    spaceAt (d.spliced start stop inserted) (start + k) = spaceAt inserted k :=
  congrArg Text.isWordSpace (codeUnitAt_inserted hstop hlength hk)

theorem feedAt_inserted {k : Nat} (hk : k < inserted.length) :
    feedAt (d.spliced start stop inserted) (start + k) = feedAt inserted k :=
  congrArg isFeed (codeUnitAt_inserted hstop hlength hk)

variable (hd : d.Live gs) (hc : d.EdgesConform gs start stop) {o : Owner}
  (ho : o ∈ d.sharedOwners gs start stop)

include hd hc ho

/-- The owner around what is inserted. -/
theorem around_inserted : (o.bracket (removed start stop inserted)).Around
    (spaceAt (d.spliced start stop inserted))
    (d.edgeResume gs start stop inserted) start
    (start + inserted.length) := by
  obtain ⟨-, hcontent, hend⟩ := mem_sharedOwners ho
  refine around_bracket hstop hlength hd hc ho hcontent le_rfl (Nat.le_add_right _ _) ?_
  refine Int.ofNat_le.1 (le_trans ?_ (Int.self_le_toNat _))
  rw [removed]
  omega

omit hstop hlength hd hc in
theorem contentEnd_bracket : (o.bracket (removed start stop inserted)).contentEnd =
    start + inserted.length + (o.contentEnd - stop) := by
  obtain ⟨-, -, hend⟩ := mem_sharedOwners ho
  rw [Owner.bracket]
  dsimp only
  rw [removed]
  omega

/-- A shared owner's bracket is sound in the text after the splice. -/
theorem sound_bracket : (o.bracket (removed start stop inserted)).Sound
    (d.spliced start stop inserted).length := by
  refine (around_inserted hstop hlength hd hc ho).sound (Int.toNat_le.2 ?_)
  have hrange := hd.conforms.runRange o.run (hc.counted o ho)
  have hs : o.stop = d.model.runEnd o.run := congrArg Owner.stop (mem_sharedOwners ho).1
  rw [length_spliced hstop hlength]
  omega

/-- Where no line feed overruns text, the innermost walk passes what may be passed. -/
theorem passable_edges (hspares : o.contentStart = start → d.SparesText gs start stop inserted)
    {i : Nat} (hi : o.contentStart ≤ i)
    (hi' : i < (edges (spaceAt (d.spliced start stop inserted))
      (feedAt (d.spliced start stop inserted))
      (d.edgeResume gs start stop inserted)
      (o.bracket (removed start stop inserted))
      (List.range (d.spliced start stop inserted).length)).1) :
    d.Passable gs start stop inserted i := by
  obtain ⟨-, hcontent, -⟩ := mem_sharedOwners ho
  rw [edges_range (sound_bracket hstop hlength hd hc ho)] at hi'
  refine skip_good (fun i h => Or.inl h) (fun g hg hfeed hgood j hj hlt hle => ?_) hi hi'
  change o.contentStart < g at hg
  rcases hcontent.lt_or_eq with hbefore | hat
  · -- The walk stops at the content's first unit, before the edit.
    rcases hgood _ le_rfl hg with hspace | ⟨hbehind, -⟩
    · have hedge : spaceAt (d.spliced start stop inserted) o.contentStart = false :=
        (around_inserted hstop hlength hd hc ho).edge hbefore
      exact absurd (hedge.symm.trans hspace) Bool.false_ne_true
    · exact absurd hbehind (by omega)
  · rcases Nat.lt_or_ge j (start + inserted.length) with hin | hbehind
    · obtain ⟨k, rfl⟩ := Nat.exists_eq_add_of_le (show start ≤ j by omega)
      obtain ⟨q, rfl⟩ := Nat.exists_eq_add_of_lt (hat ▸ hg)
      have hk : k < inserted.length := Nat.lt_of_add_lt_add_left hin
      have hq : q < k := by omega
      refine Or.inl ((spaceAt_inserted hstop hlength hk).trans (hspares hat k hk q hq ?_ ?_))
      · intro l hl
        rcases hgood (start + l) (by omega) (by omega) with hspace | hprefix
        · exact (spaceAt_inserted hstop hlength (hl.trans_lt (hq.trans hk))).symm.trans hspace
        · exact absurd hprefix.1 (by omega)
      · rw [Nat.add_sub_cancel, feedAt_inserted hstop hlength (hq.trans hk)] at hfeed
        exact overruns_iff.2 ⟨hfeed, hlt⟩
    · refine Or.inr ⟨hbehind, lt_resumeOf_iff.1 ?_⟩
      rw [(resumes_resumeOf hd start _).const g j hj hlt.le]
      exact hlt

/-- The innermost walk reaches the end of the content where the inserted text is all of it and what
    no line feed overruns is white space. -/
theorem edges_end_iff (hat : o.contentStart = start) :
    (edges (spaceAt (d.spliced start stop inserted)) (feedAt (d.spliced start stop inserted))
      (d.edgeResume gs start stop inserted) (o.bracket (removed start stop inserted))
      (List.range (d.spliced start stop inserted).length)).1 =
        (o.bracket (removed start stop inserted)).contentEnd ↔
      d.LeavesNothing gs start stop inserted o := by
  have haround : (o.bracket (removed start stop inserted)).Around _ _ start _ :=
    around_inserted hstop hlength hd hc ho
  have hsound : (o.bracket (removed start stop inserted)).Sound _ :=
    sound_bracket hstop hlength hd hc ho
  have hcontentEnd : (o.bracket (removed start stop inserted)).contentEnd = _ := contentEnd_bracket ho
  have hstart : (o.bracket (removed start stop inserted)).contentStart = start := hat
  obtain ⟨-, -, hend⟩ := mem_sharedOwners ho
  rw [edges_range hsound, skip_eq_iff (resumes_resumeOf hd start _).const
    (fun g hg => (haround.inside g hg).le) hsound.first_le (by omega), hcontentEnd, hstart]
  constructor
  · intro h
    have heq : o.contentEnd = stop := by
      by_contra hne
      -- The content goes on behind the edit, and what it ends with is passed by nothing.
      rcases h (start + inserted.length + (o.contentEnd - 1 - stop)) (by omega) (by omega) with
        hspace | ⟨g, -, hg, -, hresume⟩
      · rw [spaceAt, codeUnitAt_behind hstop hlength (by omega)] at hspace
        exact Bool.false_ne_true ((hc.closing o ho).symm.trans hspace)
      · have hinside := haround.inside g (by omega)
        exact absurd ((Int.add_one_le_of_lt hresume).trans_lt hinside) (by omega)
    refine ⟨heq, fun k hk => ?_⟩
    rcases h (start + k) (Nat.le_add_right _ _) (by omega) with hspace | ⟨g, hg, hgk, hfeed, hresume⟩
    · exact Or.inl ((spaceAt_inserted hstop hlength hk).symm.trans hspace)
    · obtain ⟨q, rfl⟩ := Nat.exists_eq_add_of_lt hg
      have hq : q < k := by omega
      rw [Nat.add_sub_cancel, feedAt_inserted hstop hlength (hq.trans hk)] at hfeed
      exact Or.inr ⟨q, hq, overruns_iff.2 ⟨hfeed, hresume⟩⟩
  · rintro ⟨heq, h⟩ i hi hi'
    obtain ⟨k, rfl⟩ := Nat.exists_eq_add_of_le hi
    have hk : k < inserted.length := by omega
    rcases h k hk with hspace | ⟨q, hq, hover⟩
    · exact Or.inl ((spaceAt_inserted hstop hlength hk).trans hspace)
    · obtain ⟨hfeed, hresume⟩ := overruns_iff.1 hover
      refine Or.inr ⟨start + (q + 1), by omega, by omega, ?_, hresume⟩
      rw [← Nat.add_assoc, Nat.add_sub_cancel, feedAt_inserted hstop hlength (hq.trans hk)]
      exact hfeed

/-- What stands before the innermost delimiter and was not there is what may be passed, so that no
    line feed overruns text. -/
theorem spares_of_stands {bs : List Bracket} (hat : o.contentStart = start)
    (hbs : Nested (spaceAt (d.spliced start stop inserted)) (d.edgeResume gs start stop inserted)
      (d.spliced start stop inserted).length start (start + inserted.length)
      (o.bracket (removed start stop inserted) :: bs))
    (hmoved : (edges (spaceAt (d.spliced start stop inserted)) (feedAt (d.spliced start stop inserted))
      (d.edgeResume gs start stop inserted) (o.bracket (removed start stop inserted))
      (List.range (d.spliced start stop inserted).length)).1 <
        (o.bracket (removed start stop inserted)).contentEnd)
    (hstands : (pushAll (spaceAt (d.spliced start stop inserted))
      (feedAt (d.spliced start stop inserted)) (d.edgeResume gs start stop inserted)
      (o.bracket (removed start stop inserted) :: bs)
      (List.range (d.spliced start stop inserted).length)).Pairwise
        (Stands (spaceAt (d.spliced start stop inserted)) (d.Passable gs start stop inserted)
          (o.bracket (removed start stop inserted) :: bs))) :
    d.SparesText gs start stop inserted := by
  intro k hk q hq hlead hover
  have hsound : (o.bracket (removed start stop inserted)).Sound _ :=
    sound_bracket hstop hlength hd hc ho
  have hne := (edges_ne_iff hsound.first_le).2 hmoved
  have hstart : (o.bracket (removed start stop inserted)).contentStart = start := hat
  have hend := hbs.1.hi_le
  obtain ⟨hfeed, hresume⟩ := overruns_iff.1 hover
  have hpassed : start + k < (edges (spaceAt (d.spliced start stop inserted))
      (feedAt (d.spliced start stop inserted)) (d.edgeResume gs start stop inserted)
      (o.bracket (removed start stop inserted))
      (List.range (d.spliced start stop inserted).length)).1 := by
    rw [edges_range hsound] at hmoved ⊢
    have hreach : start + (q + 1) ≤ skip (spaceAt (d.spliced start stop inserted))
        (feedAt (d.spliced start stop inserted)) (d.edgeResume gs start stop inserted)
        (o.bracket (removed start stop inserted)).contentEnd
        ((o.bracket (removed start stop inserted)).contentEnd -
          (o.bracket (removed start stop inserted)).contentStart)
        (o.bracket (removed start stop inserted)).contentStart := by
      by_contra hlt
      -- The walk does not stop before white space.
      obtain ⟨i, hi⟩ := Nat.exists_eq_add_of_le (hstart ▸ le_skip :
        start ≤ skip (spaceAt (d.spliced start stop inserted))
          (feedAt (d.spliced start stop inserted)) (d.edgeResume gs start stop inserted)
          (o.bracket (removed start stop inserted)).contentEnd
          ((o.bracket (removed start stop inserted)).contentEnd -
            (o.bracket (removed start stop inserted)).contentStart)
          (o.bracket (removed start stop inserted)).contentStart)
      have hstops := skip_stops (by omega) hmoved
      rw [hi, spaceAt_inserted hstop hlength (by omega), hlead i (by omega)] at hstops
      exact Bool.false_ne_true hstops.symm
    rcases resume_le_skip (resumes_resumeOf hd start _).const (by omega) hreach
      ((feedAt_inserted hstop hlength (hq.trans hk)).trans hfeed) with hle | hbehind
    · exact Int.ofNat_lt.1 (hresume.trans_le hle)
    · exact absurd (hbs.1.inside _ (by omega)) (not_lt.2 hbehind.le)
  have hsub := sublist_pushAll hbs hne (by omega) hpassed
  rcases List.pairwise_iff_forall_sublist.1 hstands hsub with hlt | ⟨b, hb, -, hpass | ⟨b', hb', hin⟩⟩ |
    ⟨b, hb, hclose, -⟩
  · have := hbs.1.start_lt
    omega
  · rcases hpass with hspace | hprefix
    · exact (spaceAt_inserted hstop hlength hk).symm.trans hspace
    · exact absurd hprefix.1 (by omega)
  · have hmem := hb'.subset List.mem_cons_self
    exact absurd (Or.inl hin) (hbs.not_bracket (by omega) (by omega) b' hmem)
  · exact absurd (Or.inr hclose) (hbs.not_bracket (by omega) (by omega) b hb)

end

section

variable (hstop : start ≤ stop) (hlength : stop ≤ d.source.length) (hd : d.Live gs)
  (hc : d.EdgesConform gs start stop)

include hstop hlength hd hc

/-- The brackets at the edges lie one within the other. -/
theorem nested_edgeBrackets : Nested (spaceAt (d.spliced start stop inserted))
    (d.edgeResume gs start stop inserted) (d.spliced start stop inserted).length start
    (start + inserted.length) (d.edgeBrackets gs start stop inserted) := by
  refine nested_brackets hstop hlength hd hc (fun o ho => List.mem_reverse.1 ho)
    (List.pairwise_reverse.2 hc.nested) le_rfl (Nat.le_add_right _ _) (fun o ho => ?_) ?_
  · have haround : (o.bracket (removed start stop inserted)).Around _ _ start _ :=
      around_inserted hstop hlength hd hc (List.mem_reverse.1 ho)
    exact ⟨haround.le_lo, haround.hi_le⟩
  · rw [spliced, Text.length_replaceRange (hstop.trans hlength)]
    exact Nat.le_add_right _ _

/-- The text around the outermost owner is that of the plain edit. -/
theorem getElem?_edgePlaces {o : Owner} (ho : o ∈ (d.sharedOwners gs start stop).head?) {i : Nat}
    (hi : i < o.start ∨ (o.bracket (removed start stop inserted)).stop ≤ i) :
    (d.edgePlaces gs start stop inserted)[i]? =
      (List.range (d.spliced start stop inserted).length)[i]? := by
  have hmem := List.mem_of_mem_head? ho
  have haround : (o.bracket (removed start stop inserted)).Around _ _ start _ :=
    around_inserted hstop hlength hd hc hmem
  have hstart : o.start ≤ start := haround.start_lt.le.trans haround.le_lo
  have hbehind := haround.hi_le.trans haround.le_stop
  refine getElem?_pushAll (nested_edgeBrackets hstop hlength hd hc) outside_range (by omega)
    fun b hb => ?_
  obtain ⟨p, hp, rfl⟩ := List.mem_map.1 hb
  obtain ⟨rest, hrest⟩ := List.head?_eq_some_iff.1 ho
  have hnested := hc.nested
  rw [hrest, List.pairwise_cons] at hnested
  rw [List.mem_reverse, hrest] at hp
  rcases List.mem_cons.1 hp with rfl | hp
  · exact hi
  · -- An inner owner is in the content of the outermost one.
    obtain ⟨hle, hge⟩ := hnested.1 p hp
    refine hi.imp (fun h => ?_) fun h => ?_
    · exact h.trans_le (haround.start_lt.le.trans hle)
    · refine le_trans (Int.toNat_le_toNat ?_) (haround.le_stop.trans h)
      omega

/-- All delimiters stand where they may if every one passes space only. -/
theorem stands_iff : (d.edgePlaces gs start stop inserted).Pairwise
    (Stands (spaceAt (d.spliced start stop inserted)) (d.Passable gs start stop inserted)
      (d.edgeBrackets gs start stop inserted)) ↔ d.PassesSpace gs start stop inserted := by
  have hnested : Nested _ _ _ start _ (d.edgeBrackets gs start stop inserted) :=
    nested_edgeBrackets hstop hlength hd hc
  have hresume := resumes_resumeOf hd (start : Int) (removed start stop inserted)
  have hfeed : ∀ v, feedAt (d.spliced start stop inserted) v = true →
      spaceAt (d.spliced start stop inserted) v = true := fun v => space_of_feedAt
  rw [PassesSpace, ← List.head?_reverse, edgePlaces]
  rw [edgeBrackets] at hnested ⊢
  rcases howners : (d.sharedOwners gs start stop).reverse with _ | ⟨o, owners⟩
  · exact ⟨fun _ o ho => absurd ho (Option.not_mem_none o), fun _ => List.pairwise_lt_range.imp Or.inl⟩
  · rw [howners] at hnested
    have ho : o ∈ d.sharedOwners gs start stop :=
      List.mem_reverse.1 (howners ▸ List.mem_cons_self)
    have hsound : (o.bracket (removed start stop inserted)).Sound _ :=
      sound_bracket hstop hlength hd hc ho
    -- The innermost delimiters are the ones to ask about: those around it are not pushed further
    -- than these.
    constructor
    · intro hstands o' ho' hat
      obtain rfl := Option.some_inj.1 ho'
      rcases (skip_le hsound.first_le).lt_or_eq with hmoved | hend
      · exact Or.inl (spares_of_stands hstop hlength hd hc ho hat hnested hmoved hstands)
      · exact Or.inr ((edges_end_iff hstop hlength hd hc ho hat).1 hend)
    · intro h
      by_cases hspares : o.contentStart = start → d.SparesText gs start stop inserted
      · exact pairwise_pushAll hresume hfeed hnested fun i hi hi' =>
          passable_edges hstop hlength hd hc ho hspares hi hi'
      · -- The walk overruns text, and reaches the end of the content.
        obtain ⟨hat, hnot⟩ := Classical.not_imp.1 hspares
        have hend := (edges_end_iff hstop hlength hd hc ho hat).2
          ((h o rfl hat).resolve_left hnot)
        refine pairwise_pushAll_still hresume hfeed hnested ?_
        refine (push_cases _ _ _ _ _).resolve_right fun hne => ?_
        exact absurd ((edges_ne_iff hsound.first_le).1 hne.1) (not_lt.2 hend.ge)

/-- `normalizeInlineEdges` moves delimiters past white space, container prefixes and inner
    delimiters only, the caret with them, exactly where no line feed overruns inserted text. -/
theorem movesDelimiters_iff (caret : Int) (pending : Option PendingStyle) :
    d.MovesDelimiters gs start stop inserted caret
        (d.normalizeInlineEdges gs start stop inserted caret pending) ↔
      d.PassesSpace gs start stop inserted := by
  have hnested : Nested _ _ _ start _ (d.edgeBrackets gs start stop inserted) :=
    nested_edgeBrackets hstop hlength hd hc
  have htext : (d.normalizeInlineEdges gs start stop inserted caret pending).text = _ :=
    text_normalizeInlineEdges hc.row caret pending
  have hperm : (d.edgePlaces gs start stop inserted).Perm _ := perm_pushAll hnested outside_range
  refine ⟨fun h => (stands_iff hstop hlength hd hc).1 h.stands, fun h =>
    ⟨?_, ?_, ?_, htext, hperm, ?_, (stands_iff hstop hlength hd hc).2 h, ?_⟩⟩
  · rw [htext, List.length_map, hperm.length_eq, List.length_range]
  · intro o ho i hi
    rw [htext, List.getElem?_map, getElem?_edgePlaces hstop hlength hd hc ho hi, ← List.getElem?_map,
      map_range_codeUnitAt]
  · intro hnone
    rw [htext, edgePlaces, edgeBrackets, hnone]
    exact map_range_codeUnitAt _
  · exact filter_pushAll hnested outside_range fun b hb i hi => decide_eq_false fun h => h b hb hi
  · intro hnonneg hle
    exact caret_foldl_normalizeOwner (fun o ho => sound_bracket hstop hlength hd hc
      (List.mem_reverse.1 ho)) hnonneg hle

end

/-- A document of an emphasized letter and a line, the caret before the letter. -/
def emphasizedLetter : Document :=
  ⟨Projection.of .units emphasized (Text.ofString "*a*\nb") {} none, .collapsed 1⟩

/-- A letter in an emphasis is a live document. -/
theorem emphasizedLetter_live : emphasizedLetter.Live .units :=
  ⟨Built.anew emphasized_schemaConforms.toConforms {}, emphasized_schemaConforms⟩

theorem sharedOwners_emphasizedLetter : emphasizedLetter.sharedOwners .units 1 1 =
    [⟨0, RunKind.emph, 0, 3, 1, 2⟩] := by decide

/-- Its emphasis is shared by an edit of the letter's place. -/
theorem emphasizedLetter_edgesConform : emphasizedLetter.EdgesConform .units 1 1 where
  counted := by decide
  row := by decide
  nested := by decide
  delimiter := by decide
  opening := by
    rw [sharedOwners_emphasizedLetter]
    intro o ho i hi hi'
    obtain rfl := List.mem_singleton.1 ho
    have : ∀ i ≤ 1, spaceAt emphasizedLetter.source i = false := by decide
    exact this i hi'
  closing := by decide
  last := by decide

/-- A line feed and a letter are inserted: the delimiter moves past the line feed. -/
theorem movesDelimiters_iff_emphasizedLetter :
    emphasizedLetter.MovesDelimiters .units 1 1 (Text.ofString "\nb") 3
      (emphasizedLetter.normalizeInlineEdges .units 1 1 (Text.ofString "\nb") 3 none) := by
  have hpasses : emphasizedLetter.PassesSpace .units 1 1 (Text.ofString "\nb") := by decide
  exact (movesDelimiters_iff le_rfl (by decide) emphasizedLetter_live
    emphasizedLetter_edgesConform 3 none).2 hpasses

/-- Its bracket after an insertion. -/
theorem edgeBrackets_emphasizedLetter (inserted : Text) : emphasizedLetter.edgeBrackets .units 1 1
    inserted = [⟨0, 1, (2 - removed 1 1 inserted).toNat, (3 - removed 1 1 inserted).toNat⟩] := by
  rw [edgeBrackets, sharedOwners_emphasizedLetter]
  rfl

/-- A line feed and two letters are inserted: the delimiter ends up between the letters, as it does
    in no order of the places in which it has moved past white space only. -/
theorem movesDelimiters_overruns :
    (emphasizedLetter.normalizeInlineEdges .units 1 1 (Text.ofString "\nxx") 4 none).text =
        Text.ofString "\nx*xa*\nb" ∧
      (∀ places : List Nat, (places.map fun i : Nat =>
          (emphasizedLetter.spliced 1 1 (Text.ofString "\nxx")).codeUnitAt i) =
            Text.ofString "\nx*xa*\nb" →
        ¬places.Pairwise (Stands (spaceAt (emphasizedLetter.spliced 1 1 (Text.ofString "\nxx")))
          (emphasizedLetter.Passable .units 1 1 (Text.ofString "\nxx"))
          (emphasizedLetter.edgeBrackets .units 1 1 (Text.ofString "\nxx")))) ∧
      ¬emphasizedLetter.MovesDelimiters .units 1 1 (Text.ofString "\nxx") 4
        (emphasizedLetter.normalizeInlineEdges .units 1 1 (Text.ofString "\nxx") 4 none) := by
  have htext : (emphasizedLetter.normalizeInlineEdges .units 1 1 (Text.ofString "\nxx") 4 none).text =
      Text.ofString "\nx*xa*\nb" := by decide
  have hnone : ∀ places : List Nat, (places.map fun i : Nat =>
      (emphasizedLetter.spliced 1 1 (Text.ofString "\nxx")).codeUnitAt i) =
        Text.ofString "\nx*xa*\nb" →
      ¬places.Pairwise (Stands (spaceAt (emphasizedLetter.spliced 1 1 (Text.ofString "\nxx")))
        (emphasizedLetter.Passable .units 1 1 (Text.ofString "\nxx"))
        (emphasizedLetter.edgeBrackets .units 1 1 (Text.ofString "\nxx"))) := by
    -- The text before has its letters at 2 and 3, and its delimiters at 0 and 5. One of the two
    -- would stand between the letters.
    intro places hplaces hstands
    have hunit : ∀ (i : Nat) (u : UInt16), (Text.ofString "\nx*xa*\nb")[i]? = some u →
        ∃ p : Nat, places[i]? = some p ∧
        (emphasizedLetter.spliced 1 1 (Text.ofString "\nxx")).codeUnitAt p = u := by
      intro i u h
      rwa [← hplaces, List.getElem?_map, Option.map_eq_some_iff] at h
    have hrel : ∀ i j y x : Nat, i < j → places[i]? = some y → places[j]? = some x →
        Stands (spaceAt (emphasizedLetter.spliced 1 1 (Text.ofString "\nxx")))
          (emphasizedLetter.Passable .units 1 1 (Text.ofString "\nxx"))
          (emphasizedLetter.edgeBrackets .units 1 1 (Text.ofString "\nxx")) y x := by
      intro i j y x hij hy hx
      obtain ⟨hi, rfl⟩ := List.getElem?_eq_some_iff.1 hy
      obtain ⟨hj, rfl⟩ := List.getElem?_eq_some_iff.1 hx
      exact List.pairwise_iff_getElem.1 hstands i j hi hj hij
    rw [edgeBrackets_emphasizedLetter] at hrel
    obtain ⟨a, ha, hax⟩ := hunit 1 0x78 (by decide)
    obtain ⟨b, hb, hbx⟩ := hunit 2 0x2A (by decide)
    obtain ⟨c, hc, hcx⟩ := hunit 3 0x78 (by decide)
    have hab := stands_singleton.1 (hrel 1 2 a b (by decide) ha hb)
    have hbc := stands_singleton.1 (hrel 2 3 b c (by decide) hb hc)
    have hbound : ∀ p : Nat, (emphasizedLetter.spliced 1 1 (Text.ofString "\nxx")).codeUnitAt p ≠ 0 →
        p < 8 := by
      intro p hp
      by_contra hge
      refine hp ?_
      rw [Text.codeUnitAt, Int.toNat_natCast]
      exact List.getD_eq_default _ _ (by change 8 ≤ p; omega)
    have hletter : ∀ p < 8, (emphasizedLetter.spliced 1 1 (Text.ofString "\nxx")).codeUnitAt (p : Nat) =
        0x78 → p = 2 ∨ p = 3 := by decide
    have hstar : ∀ p < 8, (emphasizedLetter.spliced 1 1 (Text.ofString "\nxx")).codeUnitAt (p : Nat) =
        0x2A → p = 0 ∨ p = 5 := by decide
    have ha' := hletter a (hbound a (by rw [hax]; decide)) hax
    have hb' := hstar b (hbound b (by rw [hbx]; decide)) hbx
    have hc' := hletter c (hbound c (by rw [hcx]; decide)) hcx
    rcases hb' with rfl | rfl
    · -- The opening delimiter would have moved past a letter,
      rcases ha' with rfl | rfl
      · exact absurd hab (by decide)
      · exact absurd hab (by decide)
    · -- or the closing one would have.
      rcases hc' with rfl | rfl
      · exact absurd hbc (by decide)
      · exact absurd hbc (by decide)
  exact ⟨htext, hnone, fun h => hnone _ (h.places.symm.trans htext) h.stands⟩

end Document

end Flark
