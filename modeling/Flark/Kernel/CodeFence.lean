import Flark.Kernel.Edits
import Flark.Kernel.LeafRow

/-!
# Fences

How an edit of fenced code is committed (`_commitCodeEdit` of `kernel/code_editing.dart`). The
fences must be longer than each run of their character in the code they hold: the candidate is
committed as it is, or as the first of the spellings that the parser reads as the same block with
the new body, where the edit as asked is the one whose fences have grown.

* `fenceLength`: how long the fences must be;
* `commitCodeEdit`: what is committed;
* `commitCodeEdit_spec`: the edit as asked keeps the code inside its fences.
-/

namespace Flark

namespace CodeFence

/-! ## How long the fences must be -/

/-- The loop of `_commitCodeEdit` over the body: the run of the marker that ends here, and the
    length that is more than each run so far. -/
def fenceLengthFrom (marker : UInt16) : (run length : Nat) → (rest : Text) → Nat
  | _, length, [] => length
  | run, length, u :: rest =>
    let run := if u = marker then run + 1 else 0
    fenceLengthFrom marker run (if length ≤ run then run + 1 else length) rest

/-- `length`, for a block whose fence has the length `attr`. -/
def fenceLength (marker : UInt16) (attr : Nat) (body : Text) : Nat :=
  fenceLengthFrom marker 0 attr body

/-- A run that the text goes on with joins the one before it. -/
theorem fenceLengthFrom_spec {marker : UInt16} {run length : Nat} {rest : Text}
    (hrun : run < length) : length ≤ fenceLengthFrom marker run length rest ∧
      (∀ n, List.replicate n marker <+: rest → run + n < fenceLengthFrom marker run length rest) ∧
      ∀ n, List.replicate n marker <:+: rest → n < fenceLengthFrom marker run length rest := by
  induction rest generalizing run length with
  | nil =>
    rw [fenceLengthFrom]
    refine ⟨le_rfl, fun n hn => ?_, fun n hn => ?_⟩
    · rw [List.prefix_nil, List.replicate_eq_nil_iff] at hn
      rwa [hn]
    · rw [List.infix_nil, List.replicate_eq_nil_iff] at hn
      exact hn ▸ run.zero_le.trans_lt hrun
  | cons u rest ih =>
    rw [fenceLengthFrom]
    set run' := if u = marker then run + 1 else 0 with hrun'
    set length' := if length ≤ run' then run' + 1 else length with hlength'
    have hlt : run' < length' ∧ length ≤ length' := by
      rw [hlength']
      split_ifs <;> omega
    obtain ⟨hle, hprefix, hinfix⟩ := ih hlt.1
    have hfirst : ∀ n, List.replicate n marker <+: u :: rest →
        run + n < fenceLengthFrom marker run' length' rest := by
      intro n hn
      cases n with
      | zero => omega
      | succ n =>
        rw [List.replicate_succ, List.cons_prefix_cons] at hn
        have hjoined : run' = run + 1 := if_pos hn.1.symm
        have := hprefix n hn.2
        omega
    refine ⟨hlt.2.trans hle, hfirst, fun n hn => ?_⟩
    rcases List.infix_cons_iff.1 hn with hn | hn
    · exact (Nat.le_add_left n run).trans_lt (hfirst n hn)
    · exact hinfix n hn

/-! ## Committing an edit -/

/-- What `_commitCodeEdit` commits: a candidate as it is, or the first of spellings that the parser
    reads as the block. -/
inductive CodeCommit
  | asIs (candidate : Text) (selection : Selection) (coalesce : Bool)
  | spellings (list : List Edits.Spelling) (coalesce : Bool)

/-- The edit as asked, as the source it makes and the selection in it. -/
def CodeCommit.asked (source : Text) : CodeCommit → Option (Text × Selection)
  | asIs candidate selection _ => some (candidate, selection)
  | spellings list _ =>
    (list.find? Edits.Spelling.asAsked).map fun s => (s.edits.apply source, s.selection)

/-- A loop back from an offset while the unit before it is one of those given. -/
def backTo (source : Text) (p : UInt16 → Bool) (low at_ : Nat) : Nat :=
  at_ - Scan.upTo (fun k => p (source.codeUnitAt (at_ - 1 - k : Nat))) (at_ - low) 0

section

variable (source : Text) (m : RenderModel) (b : Nat)

/-- `marker`: the character of the fences. -/
def marker : UInt16 := source.codeUnitAt (m.blockStart b)

/-- Where the opening fence ends. -/
def openingEnd : Nat := m.blockStart b + m.blockAttr b

def closed : Bool := m.blockFlags b &&& BlockFlag.closed != 0

/-- `lineStart`: where the last line of the block starts, which closes it. -/
def closingLine : Nat := m.lineStartUtf16 (m.blockFirstLine b + m.blockLineCount b - 1)

def isBlank (u : UInt16) : Bool := u == 0x20 || u == 0x09

/-- `end`: where the closing fence ends, before the blanks of its line. -/
def closingEnd : Nat := backTo source isBlank (closingLine m b) (m.blockEnd b)

/-- `start`: where the closing fence starts. -/
def closingStart : Nat :=
  backTo source (· == marker source m b) (closingLine m b) (closingEnd source m b)

/-- The candidate with a closing fence of a length at least; none where the last line of a closed
    block closes nothing. -/
def grownClosing (candidate : Text) (length : Nat) : Option Text :=
  let start := closingStart source m b
  let stop := closingEnd source m b
  if closed m b then
    if stop - start < m.blockAttr b then none
    else if stop - start < length then
      let at_ := stop + candidate.length - source.length
      some (candidate.replaceRange at_ at_
        (List.replicate (length - (stop - start)) (marker source m b)))
    else some candidate
  else some candidate

/-- `_commitCodeEdit`: the source with a fenced body edited to `body`. -/
def commitCodeEdit (row : ProjectedRow) (body candidate : Text) (selected : Selection)
    (typing checked : Bool) : CodeCommit :=
  let b := row.block.toNat
  let marker := marker source m b
  let length := fenceLength marker (m.blockAttr b) body
  if !checked && length == m.blockAttr b && (row.contentStarts.any fun start => decide (0 ≤ start)) &&
      !row.segments.any fun s => !s.exact && !s.lineBreak then
    .asIs candidate selected typing
  else
    -- A body can hold a run as long as the fence beside other text: where the parser reads the
    -- block as it was, its fences stay as they are.
    let kept : Option Edits.Spelling :=
      if m.blockAttr b < length then
        some ⟨Edits.between source candidate 0 none, selected, none, false⟩
      else none
    let openingGrowth := length - m.blockAttr b
    let grown : Option Edits.Spelling := (grownClosing source m b candidate length).map fun grown =>
      { edits := Edits.between source (grown.replaceRange (openingEnd m b) (openingEnd m b)
          (List.replicate openingGrowth marker)) 0 none
        selection := ⟨selected.base + openingGrowth, selected.extent + openingGrowth, none⟩
        pending := none
        asAsked := true }
    .spellings (kept.toList ++ grown.toList) typing

end

/-! ## The edit as asked -/

/-- What the parser reads of a fenced block: its fence is a run of the marker, and the last line of
    a closed block is a prefix, a run as long at least, and blanks. -/
structure Fenced (source : Text) (m : RenderModel) (b : Nat) (indent : Text) (run : Nat)
    (blanks : Text) : Prop where
  attr_pos : 0 < m.blockAttr b
  opening : ∀ i < m.blockAttr b, source[m.blockStart b + i]? = some (marker source m b)
  not_blank : isBlank (marker source m b) = false
  ends : closed m b = true → closingLine m b ≤ m.blockEnd b ∧ m.blockEnd b ≤ source.length
  line : closed m b = true → source.substring (closingLine m b) (m.blockEnd b) =
    indent ++ List.replicate run (marker source m b) ++ blanks
  attr_le : closed m b = true → m.blockAttr b ≤ run
  indent_last : ∀ u ∈ indent.getLast?, u ≠ marker source m b
  blanks_blank : ∀ u ∈ blanks, isBlank u = true

/-- A candidate that differs from the source between the fences only: `mid` is what it has there,
    the rest of the opening fence's line first. -/
structure EditsBody (source : Text) (m : RenderModel) (b : Nat) (mid candidate : Text) :
    Prop where
  eq : candidate = source.take (openingEnd m b) ++ mid ++
    if closed m b then source.drop (closingLine m b) else []
  head : ∀ u ∈ mid.head?, u ≠ marker source m b
  ne_nil : closed m b = true → mid ≠ []

/-- A line that closes a block whose fence has the length given. -/
def ClosesFence (marker : UInt16) (length : Nat) (line : Text) : Prop :=
  ∃ indent run blanks, indent ≤ 3 ∧ length ≤ run ∧ (∀ u ∈ blanks, isBlank u = true) ∧
    line = List.replicate indent 0x20 ++ List.replicate run marker ++ blanks

theorem backTo_eq {p : UInt16 → Bool} {low : Nat} {before piece after : Text}
    (hlow : low ≤ before.length) (hpiece : ∀ u ∈ piece, p u = true)
    (hbefore : low < before.length → ∀ u ∈ before.getLast?, p u = false) :
    backTo (before ++ piece ++ after) p low (before.length + piece.length) = before.length := by
  set q := fun k => p ((before ++ piece ++ after).codeUnitAt
    (before.length + piece.length - 1 - k : Nat)) with hq
  set n := before.length + piece.length - low with hn
  have hle := Scan.upTo_le q n 0
  rw [backTo, ← hn, ← hq]
  rcases lt_trichotomy (Scan.upTo q n 0) piece.length with hlt | heq | hlt
  · -- The scan stops inside the piece, at a unit of it.
    have hfails : q (Scan.upTo q n 0) = false := Scan.fails (by omega)
    have hunit : (before ++ piece ++ after).codeUnitAt
        (before.length + piece.length - 1 - Scan.upTo q n 0 : Nat) ∈ piece := by
      rw [Text.codeUnitAt, Int.toNat_natCast, List.append_assoc, List.getD_append_right _ _ _ _
        (by omega), List.getD_append _ _ _ _ (by omega), List.getD_eq_getElem _ _ (by omega)]
      exact List.getElem_mem _
    exact absurd (hpiece _ hunit) (Bool.eq_false_iff.1 hfails)
  · rw [heq, Nat.add_sub_cancel]
  · -- The scan goes on over the last unit before it.
    have hholds : q piece.length = true := Scan.holds (Nat.zero_le _) hlt
    have hpos : 0 < before.length := by omega
    have hlast : before.getLast? = some ((before ++ piece ++ after).codeUnitAt
        (before.length + piece.length - 1 - piece.length : Nat)) := by
      rw [Text.codeUnitAt, Int.toNat_natCast, List.append_assoc, List.getD_append _ _ _ _
        (by omega), List.getD_eq_getElem _ _ (by omega), List.getLast?_eq_getElem?,
        ← List.getElem?_eq_getElem]
      congr 1
      omega
    exact absurd hholds (Bool.eq_false_iff.1 (hbefore (by omega) _ hlast))

/-- A line of a text is a part of it, and the first starts it. -/
theorem infix_of_mem_splitOn (t : Text) (a : UInt16) :
    (∀ line ∈ (t.splitOn a).head?, line <+: t) ∧ ∀ line ∈ t.splitOn a, line <:+: t := by
  induction t with
  | nil =>
    rw [List.splitOn_nil]
    refine ⟨fun line hline => ?_, fun line hline => ?_⟩
    · cases hline
      exact List.prefix_rfl
    · obtain rfl := List.mem_singleton.1 hline
      exact List.infix_rfl
  | cons u t ih =>
    rw [List.splitOn_cons_eq_if_modifyHead]
    split_ifs with hu
    · refine ⟨fun line hline => ?_, List.forall_mem_cons.2 ⟨List.nil_infix, fun line hline => ?_⟩⟩
      · cases hline
        exact List.nil_prefix
      · exact (ih.2 line hline).trans (List.suffix_cons u t).isInfix
    · cases hlines : t.splitOn a with
      | nil => exact absurd hlines (List.splitOn_ne_nil a t)
      | cons first lines =>
        rw [hlines] at ih
        have hfirst : u :: first <+: u :: t := List.cons_prefix_cons.2 ⟨rfl, ih.1 first rfl⟩
        rw [List.modifyHead_cons]
        refine ⟨fun line hline => ?_, List.forall_mem_cons.2 ⟨hfirst.isInfix, fun line hline => ?_⟩⟩
        · cases hline
          exact hfirst
        · exact (ih.2 line (List.mem_cons_of_mem _ hline)).trans (List.suffix_cons u t).isInfix

theorem replaceRange_insert (before after piece : Text) :
    (before ++ after).replaceRange before.length before.length piece = before ++ piece ++ after := by
  rw [Text.replaceRange, List.take_left, List.drop_left]

section

variable {source : Text} {m : RenderModel} {b : Nat} {indent blanks mid candidate : Text} {run : Nat}

/-- A closed block's closing fence in the source. -/
theorem Fenced.source_eq (h : Fenced source m b indent run blanks) (hclosed : closed m b = true) :
    source = source.take (closingLine m b) ++
      (indent ++ List.replicate run (marker source m b) ++ blanks) ++ source.drop (m.blockEnd b) := by
  have hends := h.ends hclosed
  rw [← h.line hclosed, Text.substring, Int.toNat_natCast,
    show ((m.blockEnd b : Int) - closingLine m b).toNat = m.blockEnd b - closingLine m b by omega,
    ← List.drop_take]
  conv_lhs => rw [← List.take_append_drop (m.blockEnd b) source,
    ← List.take_append_drop (closingLine m b) (source.take (m.blockEnd b)), List.take_take,
    Nat.min_eq_left hends.1]

theorem Fenced.blockEnd_eq (h : Fenced source m b indent run blanks) (hclosed : closed m b = true) :
    m.blockEnd b = closingLine m b + indent.length + run + blanks.length := by
  have hends := h.ends hclosed
  have hlength := congrArg List.length (h.line hclosed)
  rw [Text.length_substring (by omega) (by omega), List.length_append, List.length_append,
    List.length_replicate] at hlength
  omega

theorem Fenced.closingEnd_eq (h : Fenced source m b indent run blanks)
    (hclosed : closed m b = true) :
    closingEnd source m b = closingLine m b + indent.length + run := by
  have hends := h.ends hclosed
  have hrun := h.attr_pos.trans_le (h.attr_le hclosed)
  set before := source.take (closingLine m b) ++ indent ++
    List.replicate run (marker source m b) with hbefore
  have hlength : before.length = closingLine m b + indent.length + run := by
    rw [hbefore, List.length_append, List.length_append, List.length_replicate, List.length_take]
    omega
  have hsource : source = before ++ blanks ++ source.drop (m.blockEnd b) := by
    conv_lhs => rw [h.source_eq hclosed]
    rw [hbefore]
    simp only [List.append_assoc]
  have hback := @backTo_eq isBlank (closingLine m b) before blanks (source.drop (m.blockEnd b))
    (by omega) h.blanks_blank fun _ u hu => by
      rw [hbefore, List.getLast?_append, List.getLast?_replicate, if_neg hrun.ne'] at hu
      cases hu
      exact h.not_blank
  rw [← hsource, hlength, ← h.blockEnd_eq hclosed] at hback
  exact hback

theorem Fenced.closingStart_eq (h : Fenced source m b indent run blanks)
    (hclosed : closed m b = true) :
    closingStart source m b = closingLine m b + indent.length := by
  have hends := h.ends hclosed
  set before := source.take (closingLine m b) ++ indent with hbefore
  set piece := List.replicate run (marker source m b) with hpiece
  have hlength : before.length = closingLine m b + indent.length := by
    rw [hbefore, List.length_append, List.length_take]
    omega
  have hsource : source = before ++ piece ++ (blanks ++ source.drop (m.blockEnd b)) := by
    conv_lhs => rw [h.source_eq hclosed]
    rw [hbefore, hpiece]
    simp only [List.append_assoc]
  have hback := @backTo_eq (· == marker source m b) (closingLine m b) before piece
    (blanks ++ source.drop (m.blockEnd b)) (by omega)
    (fun u hu => beq_iff_eq.2 (List.eq_of_mem_replicate hu)) fun hlt u hu => by
      rw [hbefore, List.getLast?_append] at hu
      cases hindent : indent.getLast? with
      | none =>
        rw [List.getLast?_eq_none_iff] at hindent
        rw [hindent, List.length_nil] at hlength
        omega
      | some v =>
        rw [hindent] at hu
        cases hu
        exact beq_eq_false_iff_ne.2 (h.indent_last _ hindent)
  rw [← hsource, hlength, hpiece, List.length_replicate, ← h.closingEnd_eq hclosed] at hback
  exact hback

theorem Fenced.length_opening (h : Fenced source m b indent run blanks) :
    (source.take (openingEnd m b)).length = openingEnd m b := by
  have hpos := h.attr_pos
  have hlast := (List.getElem?_eq_some_iff.1 (h.opening (m.blockAttr b - 1) (by omega))).1
  rw [List.length_take, openingEnd]
  omega

/-- What of a candidate is behind the body, where its closing fence has a length at least. -/
def closing (source : Text) (m : RenderModel) (b : Nat) (indent : Text) (run : Nat) (blanks : Text)
    (length : Nat) : Text :=
  if closed m b then
    indent ++ List.replicate (max run length) (marker source m b) ++ blanks ++
      source.drop (m.blockEnd b)
  else []

theorem Fenced.grownClosing_eq (h : Fenced source m b indent run blanks)
    (hedit : EditsBody source m b mid candidate) (length : Nat) :
    grownClosing source m b candidate length = some (source.take (openingEnd m b) ++ mid ++
      closing source m b indent run blanks length) := by
  rw [grownClosing, closing]
  cases hclosed : closed m b with
  | false =>
    have heq := hedit.eq
    rw [hclosed] at heq
    simpa using heq
  | true =>
    have hends := h.ends hclosed
    have hattr := h.attr_le hclosed
    have hstop := h.closingEnd_eq hclosed
    have hstart := h.closingStart_eq hclosed
    have hsize : closingEnd source m b - closingStart source m b = run := by omega
    have hdrop : source.drop (closingLine m b) =
        indent ++ List.replicate run (marker source m b) ++ blanks ++
          source.drop (m.blockEnd b) := by
      conv_lhs => rw [h.source_eq hclosed]
      rw [List.append_assoc, List.drop_left' (by rw [List.length_take]; omega)]
    -- The candidate ends with the closing line, whose run is made longer behind the last marker.
    have heq : candidate = (source.take (openingEnd m b) ++ mid ++ indent ++
        List.replicate run (marker source m b)) ++ (blanks ++ source.drop (m.blockEnd b)) := by
      rw [hedit.eq, hclosed, if_pos rfl, hdrop]
      simp only [List.append_assoc]
    simp only [if_true, hsize]
    rw [if_neg (not_lt.2 hattr)]
    split_ifs with hlt
    · have hat : closingEnd source m b + candidate.length - source.length =
          (source.take (openingEnd m b) ++ mid ++ indent ++
            List.replicate run (marker source m b)).length := by
        have hlength := congrArg List.length (h.source_eq hclosed)
        have hlength' := congrArg List.length heq
        simp only [List.length_append, List.length_replicate, List.length_take] at *
        omega
      rw [hat, heq, replaceRange_insert, Nat.max_eq_right hlt.le,
        show length = run + (length - run) by omega, List.replicate_add, Nat.add_sub_cancel_left]
      simp only [List.append_assoc]
    · rw [Nat.max_eq_left (not_lt.1 hlt), heq]
      simp only [List.append_assoc]

theorem Fenced.candidate_eq (h : Fenced source m b indent run blanks)
    (hedit : EditsBody source m b mid candidate) : candidate = source.take (openingEnd m b) ++ mid ++
      closing source m b indent run blanks (m.blockAttr b) := by
  have hgrown := h.grownClosing_eq hedit (m.blockAttr b)
  rw [grownClosing] at hgrown
  split_ifs at hgrown
  · exact Option.some_inj.1 hgrown
  · exact Option.some_inj.1 hgrown

/-- The edit as asked is the candidate with both fences grown. -/
theorem asked_commitCodeEdit {row : ProjectedRow} {body : Text} {selected : Selection}
    {typing checked : Bool} {length : Nat}
    (h : Fenced source m row.block.toNat indent run blanks)
    (hedit : EditsBody source m row.block.toNat mid candidate)
    (hlength : fenceLength (marker source m row.block.toNat) (m.blockAttr row.block.toNat) body =
      length) :
    ∃ selection : Selection,
      (commitCodeEdit source m row body candidate selected typing checked).asked source =
        some (source.take (openingEnd m row.block.toNat) ++
          List.replicate (length - m.blockAttr row.block.toNat) (marker source m row.block.toNat) ++
          mid ++ closing source m row.block.toNat indent run blanks length, selection) ∧
      selection.base = selected.base + (length - m.blockAttr row.block.toNat : Nat) ∧
      selection.extent = selected.extent + (length - m.blockAttr row.block.toNat : Nat) := by
  rw [commitCodeEdit]
  simp only [hlength]
  split
  · -- The candidate as it is: the fences have the length they need.
    next hdirect =>
    simp only [Bool.and_eq_true, beq_iff_eq] at hdirect
    refine ⟨selected, ?_, ?_⟩
    · rw [CodeCommit.asked, hdirect.1.1.2, Nat.sub_self, List.replicate_zero, List.append_nil,
        ← h.candidate_eq hedit]
    · simp [hdirect.1.1.2]
  · rw [h.grownClosing_eq hedit]
    refine ⟨⟨selected.base + (length - m.blockAttr row.block.toNat : Nat),
      selected.extent + (length - m.blockAttr row.block.toNat : Nat), none⟩, ?_, rfl, rfl⟩
    have hopening := replaceRange_insert (source.take (openingEnd m row.block.toNat))
      (mid ++ closing source m row.block.toNat indent run blanks length)
      (List.replicate (length - m.blockAttr row.block.toNat) (marker source m row.block.toNat))
    rw [h.length_opening, ← List.append_assoc, ← List.append_assoc] at hopening
    set text := source.take (openingEnd m row.block.toNat) ++
      List.replicate (length - m.blockAttr row.block.toNat) (marker source m row.block.toNat) ++
      mid ++ closing source m row.block.toNat indent run blanks length
    obtain ⟨_, -, -, happly, -⟩ := Edits.between_spec source text 0 none
      (fun i hi => absurd hi (Nat.not_lt_zero i)) fun stop hstop => absurd hstop (Option.not_mem_none _)
    rw [CodeCommit.asked, Option.map_some, Option.toList_some, hopening, List.find?_append]
    split <;> simp [happly]

/-- The marker's run that the candidate starts its opening fence with is the whole of it. -/
theorem Fenced.takeWhile_opening (h : Fenced source m b indent run blanks)
    (hedit : EditsBody source m b mid candidate) (growth length : Nat) :
    ((source.take (openingEnd m b) ++ List.replicate growth (marker source m b) ++ mid ++
      closing source m b indent run blanks length).drop (m.blockStart b)).takeWhile
        (· == marker source m b) = List.replicate (m.blockAttr b + growth) (marker source m b) := by
  have hfence : (source.drop (m.blockStart b)).take (m.blockAttr b) =
      List.replicate (m.blockAttr b) (marker source m b) := by
    ext1 i
    rw [List.getElem?_take, List.getElem?_drop, List.getElem?_replicate]
    split_ifs with hi
    · exact h.opening i hi
    · rfl
  have hstart : (source.take (m.blockStart b)).length = m.blockStart b := by
    have := h.length_opening
    rw [List.length_take, openingEnd] at this
    rw [List.length_take]
    omega
  have hrest : (mid ++ closing source m b indent run blanks length).takeWhile
      (· == marker source m b) = [] := by
    cases hmid : mid with
    | nil =>
      rw [closing, Bool.eq_false_iff.2 fun hclosed => hedit.ne_nil hclosed hmid]
      rfl
    | cons u mid =>
      rw [List.cons_append, List.takeWhile_cons_of_neg]
      rw [beq_iff_eq]
      exact hedit.head u (by rw [hmid]; rfl)
  rw [openingEnd, List.take_add, hfence, List.append_assoc _ mid, List.append_assoc,
    List.append_assoc, List.drop_left' hstart, ← List.append_assoc, List.replicate_append_replicate,
    List.takeWhile_append_of_pos, hrest, List.append_nil]
  exact fun u hu => beq_iff_eq.2 (List.eq_of_mem_replicate hu)

end

/-- The fences outgrow the code between them: they are as long as the block's at least and longer
    than each run of their character in the body. In the edit as asked the opening fence has that
    length and the closing fence of a closed block that length at least, with its prefix, a longer
    run and its blanks kept; what is between them is unchanged, and the selection is moved by what
    the opening fence grows. Where the fences keep their length, no line of the body closes the
    block. -/
theorem commitCodeEdit_spec (source : Text) (m : RenderModel) (row : ProjectedRow)
    (body mid candidate indent blanks : Text) (run : Nat) (selected : Selection)
    (typing checked : Bool) {b length growth : Nat} {u : UInt16} (hb : b = row.block.toNat)
    (hu : u = marker source m b) (hlength : length = fenceLength u (m.blockAttr b) body)
    (hgrowth : growth = length - m.blockAttr b)
    (h : Fenced source m b indent run blanks) (hedit : EditsBody source m b mid candidate) :
    m.blockAttr b ≤ length ∧ (∀ n, List.replicate n u <:+: body → n < length) ∧
      (∃ text selection,
        (commitCodeEdit source m row body candidate selected typing checked).asked source =
          some (text, selection) ∧
        text = source.take (openingEnd m b) ++ List.replicate growth u ++ mid ++
          (if closed m b then indent ++ List.replicate (max run length) u ++ blanks ++
            source.drop (m.blockEnd b) else []) ∧
        (text.drop (m.blockStart b)).takeWhile (· == u) = List.replicate length u ∧
        selection.base = selected.base + growth ∧ selection.extent = selected.extent + growth) ∧
      (length = m.blockAttr b → ∀ line ∈ body.splitOn 0x0A, ¬ClosesFence u (m.blockAttr b) line) := by
  subst hb hu hgrowth
  obtain ⟨hle, -, hruns⟩ := @fenceLengthFrom_spec
    (marker source m row.block.toNat) _ _ body h.attr_pos
  rw [← fenceLength, ← hlength] at hle hruns
  refine ⟨hle, hruns, ?_, ?_⟩
  · obtain ⟨selection, hasked, hbase, hextent⟩ := asked_commitCodeEdit h hedit hlength.symm
    refine ⟨_, selection, hasked, rfl, ?_, hbase, hextent⟩
    rw [h.takeWhile_opening hedit, Nat.add_sub_cancel' hle]
  · rintro hkept line hline ⟨indent', run', blanks', -, hrun, -, rfl⟩
    -- The line would hold a run as long as the fence.
    have hpart : List.replicate (m.blockAttr row.block.toNat) (marker source m row.block.toNat) <:+:
        List.replicate run' (marker source m row.block.toNat) := by
      rw [← Nat.add_sub_cancel' hrun, List.replicate_add]
      exact (List.prefix_append _ _).isInfix
    have hline' := (infix_of_mem_splitOn body 0x0A).2 _ hline
    have hinside : List.replicate run' (marker source m row.block.toNat) <:+:
        List.replicate indent' 0x20 ++ List.replicate run' (marker source m row.block.toNat) ++
          blanks' := List.infix_append _ _ _
    have := hruns _ (hpart.trans (hinside.trans hline'))
    omega

/-- A model of a fenced block of one line in a quote, closed by a longer fence with a blank behind
    it, and a paragraph. -/
def quotedFence : RenderModel where
  bytes := []
  words :=
    [0x354B4C46, 5, 19, 19, 4, 4, 2, 1, 0, 0, 2, 0] ++ [0, 6, 10, 18] ++
    [0, 0xFFFFFFFF, 0, 19, 0, 4, 0, 0, 0, 0xFFFFFFFF] ++
    [5, 0, 0, 17, 0, 3, 0, 0, 0, 0xFFFFFFFF] ++
    [0x303, 1, 2, 17, 0, 3, 0, 0, 3, 0] ++
    [1, 0, 18, 19, 3, 1, 1, 0, 0, 0xFFFFFFFF] ++
    [8, 9, 6, 1] ++ [18, 19, 18, 3] ++ [18, 19, 0, 1] ++ [5, 5]

theorem quotedFence_fenced : Fenced (Text.ofString "> ```\n> a\n> ```` \nx") quotedFence 2
    (Text.ofString "> ") 4 (Text.ofString " ") where
  attr_pos := by decide
  opening := by decide
  not_blank := by decide
  ends := by decide
  line := by decide
  attr_le := by decide
  indent_last u hu := by
    have hlast : (Text.ofString "> ").getLast? = some 0x20 := by decide
    obtain rfl := Option.some_inj.1 (hlast.symm.trans hu)
    decide
  blanks_blank := List.all_eq_true.1 (by decide)

/-- Four backticks in place of the letter: the fences become five. -/
theorem commitCodeEdit_spec_quoted :
    ∃ text selection,
      (commitCodeEdit (Text.ofString "> ```\n> a\n> ```` \nx") quotedFence
        (literalRow quotedFence (Text.ofString "> ```\n> a\n> ```` \nx") 2 (quotedFence.leaf 2) [])
        (Text.ofString "````") (Text.ofString "> ```\n> ````\n> ```` \nx") (Selection.collapsed 12)
        false false).asked (Text.ofString "> ```\n> a\n> ```` \nx") = some (text, selection) ∧
      text = Text.ofString "> `````\n> ````\n> ````` \nx" ∧ selection.extent = 14 := by
  have hhead : ∀ u ∈ (Text.ofString "\n> ````\n").head?,
      u ≠ marker (Text.ofString "> ```\n> a\n> ```` \nx") quotedFence 2 := by
    intro u hu
    have hfeed : (Text.ofString "\n> ````\n").head? = some 0x0A := by decide
    obtain rfl := Option.some_inj.1 (hfeed.symm.trans hu)
    decide
  obtain ⟨-, -, ⟨text, selection, hasked, htext, -, -, hextent⟩, -⟩ :=
    commitCodeEdit_spec (Text.ofString "> ```\n> a\n> ```` \nx") quotedFence
      (literalRow quotedFence (Text.ofString "> ```\n> a\n> ```` \nx") 2 (quotedFence.leaf 2) [])
      (Text.ofString "````") (Text.ofString "\n> ````\n")
      (Text.ofString "> ```\n> ````\n> ```` \nx") (Text.ofString "> ") (Text.ofString " ") 4
      (Selection.collapsed 12) false false rfl rfl rfl rfl quotedFence_fenced
      ⟨by decide, hhead, by decide⟩
  exact ⟨text, selection, hasked, htext.trans (by decide), hextent⟩

end CodeFence

end Flark
