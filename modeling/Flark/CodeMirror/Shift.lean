import Flark.Kernel.CodeEditing
import Flark.Lib.Fronts
import Flark.Lib.Scan

/-!
# Shifting the lines of code

Tab and Shift-Tab over whole lines of a code body (`_shift` of `flark_codemirror/edit.dart`), and
the step they go by (`codeIndentUnit` of `flark/code.dart`). A body has LF line breaks only.

* `Covers`: the lines that a range covers, and what is before and behind them;
* `shift_eq`: a shift changes the fronts of those lines (`Fronts.placed`);
* `shift_undo`: Shift-Tab takes away what Tab has put there, and the selection comes back.
-/

namespace Flark

/-- `codeLeadingWhitespace`: the spaces and tabs that a text begins with. -/
def codeLeadingWhitespace (text : Text) : Text := text.takeWhile fun u => u == 0x20 || u == 0x09

/-- `codeIndentUnit`: an existing tab, else four spaces for Python and two otherwise. -/
def codeIndentUnit (text language : Text) : Text :=
  if (text.splitOn 0x0A).any fun line => (codeLeadingWhitespace line).contains 0x09 then [0x09]
  else if language = Text.ofString "python" then Text.ofString "    "
  else Text.ofString "  "

/-- A text with a proposal made. -/
def CodeEditProposal.apply (proposal : CodeEditProposal) (source : Text) : Text :=
  source.replaceRange proposal.start.toNat proposal.stop.toNat proposal.text

namespace CodeMirror

/-- `_lineStart`. -/
def lineStart (s : Text) : (p : Nat) → Nat
  | 0 => 0
  | p + 1 => if s[p]? = some 0x0A then p + 1 else lineStart s p

/-- `_lineEnd`. -/
def lineEnd (s : Text) (p : Nat) : Nat :=
  Scan.upTo (fun i => !(s[i]? == some 0x0A || s[i]? == some 0x0D)) (s.length - p) p

/-- `indexOf('\n', p)`. -/
def indexOfBreak (s : Text) (p : Nat) : Option Nat :=
  let i := Scan.upTo (fun i => !(s[i]? == some 0x0A)) (s.length - p) p
  if i < s.length then some i else none

/-- What `_shift` takes off the front of a line. -/
def removedFrom (unit line : Text) : Nat :=
  let space := codeLeadingWhitespace line
  let step := if unit = [0x09] then 4 else unit.length
  if space.head? = some 0x09 then 1 else if space.length < step then space.length else step

/-- The change of a line. -/
def frontOf (indent : Bool) (unit line : Text) : Fronts.Front UInt16 :=
  ⟨line, if indent then 0 else removedFrom unit line, if indent then unit else []⟩

/-- The loop of `_shift` over the lines from `line` to `last`. -/
def shiftChanges (source : Text) (indent : Bool) (unit : Text) (last : Nat) :
    (turns line : Nat) → List (Fronts.Change UInt16)
  | 0, _ => []
  | turns + 1, line =>
    if last < line then []
    else
      let front := frontOf indent unit (source.substring line (lineEnd source line : Nat))
      let next := ((indexOfBreak source line).map (· + 1)).getD (last + 1)
      ⟨line, front.cut, front.piece⟩ :: shiftChanges source indent unit last turns next

/-- `_shift`. -/
def shift (source : Text) (base extent : Nat) (indent : Bool) (unit : Text) : CodeEditProposal :=
  let start := if base < extent then base else extent
  let stop := if base < extent then extent else base
  if base = extent ∧ indent then ⟨base, base, unit, base + unit.length, base + unit.length⟩
  else
    let first := lineStart source start
    let last :=
      if start < stop ∧ lineStart source stop = stop then lineStart source (stop - 1)
      else lineStart source stop
    let end_ := lineEnd source last
    let changes := shiftChanges source indent unit last (last + 1 - first) first
    ⟨first, end_, Fronts.splice source end_ first changes, Fronts.mapped base 0 changes,
      Fronts.mapped extent 0 changes⟩

/-! ## Lines -/

section

variable {source A B l R : Text} {lines : List Text} {p : Nat}

/-- A middle part is replaced between what is around it. -/
theorem replaceRange_middle {M M' : Text} (hsource : source = A ++ M ++ B) :
    source.replaceRange A.length (A.length + M.length) M' = A ++ M' ++ B := by
  rw [hsource, Text.replaceRange, ← List.length_append, List.drop_left, List.append_assoc A M B,
    List.take_left]

/-- Nothing, or up to the end of a line. -/
def Ended (A : Text) : Prop := ∀ u ∈ A.getLast?, u = 0x0A

theorem ended_nil : Ended [] := fun _ h => nomatch h

theorem ended_concat (A : Text) : Ended (A ++ [0x0A]) := fun u hu => by
  rw [List.getLast?_concat] at hu
  exact (Option.some.inj hu).symm

/-- Two texts that end in breaks make one. -/
theorem Ended.append (hA : Ended A) (hB : Ended B) : Ended (A ++ B) := by
  rcases List.eq_nil_or_concat B with rfl | ⟨B, u, rfl⟩
  · rwa [List.append_nil]
  · rw [List.concat_eq_append] at hB ⊢
    intro v hv
    rw [← List.append_assoc, List.getLast?_concat] at hv
    exact hB v (by rw [List.getLast?_concat]; exact hv)

/-- The line of a place starts behind the last break before it. -/
theorem lineStart_eq (hsource : source = A ++ (l ++ R)) (hA : Ended A) (hl : 0x0A ∉ l)
    (hp : A.length ≤ p) (hp' : p ≤ A.length + l.length) : lineStart source p = A.length := by
  obtain ⟨i, rfl⟩ := Nat.exists_eq_add_of_le hp
  induction i with
  | zero =>
    rcases List.eq_nil_or_concat A with rfl | ⟨A, u, rfl⟩
    · rfl
    · rw [List.concat_eq_append] at hA hsource ⊢
      have hu : u = 0x0A := hA u List.getLast?_concat
      have hat : source[A.length]? = some 0x0A := by
        rw [hsource, hu, List.append_assoc, List.getElem?_append_right (Nat.le_refl _), Nat.sub_self]
        rfl
      rw [List.length_append, List.length_singleton, Nat.add_zero, lineStart, if_pos hat]
  | succ i ih =>
    have hi : i < l.length := by omega
    have hne : source[A.length + i]? ≠ some 0x0A := by
      rw [hsource, List.getElem?_append_right (Nat.le_add_right _ _), Nat.add_sub_cancel_left,
        List.getElem?_append_left hi]
      exact fun h => hl (List.mem_of_getElem? h)
    rw [← Nat.add_assoc, lineStart, if_neg hne]
    exact ih (Nat.le_add_right _ _) (by omega)

/-- Where a scan over a line stops. -/
theorem scanLine_eq (stops : Option UInt16 → Bool) (hsource : source = A ++ (l ++ R))
    (hl : ∀ u ∈ l, stops (some u) = false) (hR : ∀ u ∈ R.head?, stops (some u) = true)
    (hp : A.length ≤ p) (hp' : p ≤ A.length + l.length) :
    Scan.upTo (fun i => !stops source[i]?) (source.length - p) p = A.length + l.length := by
  have hlength : source.length = A.length + (l.length + R.length) := by
    rw [hsource, List.length_append, List.length_append]
  refine Scan.upTo_eq hp' (by omega) (fun k hk hk' => ?_) fun hlt => ?_
  · have hat : source[k]? = l[k - A.length]? := by
      rw [hsource, List.getElem?_append_right (hp.trans hk), List.getElem?_append_left (by omega)]
    rw [hat, List.getElem?_eq_getElem (by omega), hl _ (List.getElem_mem _)]
    rfl
  · have hat : source[A.length + l.length]? = R.head? := by
      rw [hsource, List.getElem?_append_right (Nat.le_add_right _ _), Nat.add_sub_cancel_left,
        List.getElem?_append_right (Nat.le_refl _), Nat.sub_self, List.head?_eq_getElem?]
    cases R with
    | nil =>
      rw [List.length_nil] at hlength
      omega
    | cons u R =>
      rw [hat, List.head?_cons, hR u rfl]
      rfl

/-- The line of a place ends at the next break. -/
theorem lineEnd_eq (hsource : source = A ++ (l ++ R)) (hl : 0x0A ∉ l ∧ 0x0D ∉ l)
    (hR : ∀ u ∈ R.head?, u = 0x0A) (hp : A.length ≤ p) (hp' : p ≤ A.length + l.length) :
    lineEnd source p = A.length + l.length :=
  scanLine_eq (fun u => u == some 0x0A || u == some 0x0D) hsource
    (fun u hu => by
      have hlf : u ≠ 0x0A := fun h => hl.1 (h ▸ hu)
      have hcr : u ≠ 0x0D := fun h => hl.2 (h ▸ hu)
      rw [Bool.or_eq_false_iff, beq_eq_false_iff_ne, beq_eq_false_iff_ne]
      exact ⟨fun h => hlf (Option.some.inj h), fun h => hcr (Option.some.inj h)⟩)
    (fun u hu => by rw [hR u hu]; rfl) hp hp'

/-- The next break is at the end of the line, if there is one. -/
theorem indexOfBreak_eq (hsource : source = A ++ (l ++ R)) (hl : 0x0A ∉ l)
    (hR : ∀ u ∈ R.head?, u = 0x0A) :
    indexOfBreak source A.length = if R = [] then none else some (A.length + l.length) := by
  rw [indexOfBreak, scanLine_eq (· == some 0x0A) hsource
    (fun u hu => beq_eq_false_iff_ne.2 fun h => hl (Option.some.inj h ▸ hu))
    (fun u hu => by rw [hR u hu]; rfl) (Nat.le_refl _) (Nat.le_add_right _ _)]
  rw [hsource, List.length_append, List.length_append]
  cases R with
  | nil => rw [if_neg (by rw [List.length_nil]; omega), if_pos rfl]
  | cons u R =>
    rw [if_pos (by rw [List.length_cons]; omega), if_neg (List.cons_ne_nil _ _)]

/-- Every position is in a line. -/
theorem exists_line (source : Text) (hp : p ≤ source.length) :
    ∃ A l R, source = A ++ (l ++ R) ∧ Ended A ∧ 0x0A ∉ l ∧ (∀ u ∈ R.head?, u = 0x0A) ∧
      A.length ≤ p ∧ p ≤ A.length + l.length := by
  induction source generalizing p with
  | nil =>
    exact ⟨[], [], [], rfl, ended_nil, List.not_mem_nil, (fun _ h => nomatch h), Nat.zero_le _, hp⟩
  | cons u source ih =>
    -- The line of the position, or for the first of a text that of the next one.
    obtain ⟨A, l, R, rfl, hA, hl, hR, hle, hle'⟩ := ih (p := p - 1) (by
      rw [List.length_cons] at hp
      omega)
    rcases List.eq_nil_or_concat A with rfl | ⟨A, v, rfl⟩
    · by_cases hu : u = 0x0A
      · subst hu
        rcases p with _ | p
        · exact ⟨[], [], 0x0A :: (l ++ R), rfl, ended_nil, List.not_mem_nil,
            (fun u hu => (Option.some.inj hu).symm), Nat.le_refl _, Nat.le_refl _⟩
        · refine ⟨[0x0A], l, R, rfl, ended_concat [], hl, hR, ?_, ?_⟩
          · rw [List.length_singleton]
            omega
          · rw [List.length_nil] at hle'
            rw [List.length_singleton]
            omega
      · refine ⟨[], u :: l, R, rfl, hA, ?_, hR, Nat.zero_le _, ?_⟩
        · rw [List.mem_cons, not_or]
          exact ⟨Ne.symm hu, hl⟩
        · rw [List.length_nil] at hle' ⊢
          rw [List.length_cons]
          omega
    · rw [List.concat_eq_append] at hA hle hle' ⊢
      have hv : v = 0x0A := hA v List.getLast?_concat
      refine ⟨u :: A ++ [v], l, R, rfl, hv ▸ ended_concat (u :: A), hl, hR, ?_, ?_⟩
      · rw [List.length_append, List.length_singleton] at hle
        rw [List.length_append, List.length_cons, List.length_singleton]
        omega
      · rw [List.length_append, List.length_singleton] at hle hle'
        rw [List.length_append, List.length_cons, List.length_singleton]
        omega

/-! ## The lines that a shift changes -/

/-- The lines that a range covers. -/
structure Covers (source : Text) (start stop : Nat) (A : Text) (lines : List Text) (B : Text) :
    Prop where
  text : source = A ++ [0x0A].intercalate lines ++ B
  ended : Ended A
  behind : ∀ u ∈ B.head?, u = 0x0A
  plain : ∀ l ∈ lines, 0x0A ∉ l ∧ 0x0D ∉ l
  /-- The range starts in the first line. -/
  starts : A.length ≤ start ∧ ∃ l ∈ lines.head?, start ≤ A.length + l.length
  /-- It ends in the last line, and not at its start, or at the start of the next line. -/
  stops :
    (A.length + Fronts.lastStart lines < stop ∨ start = stop ∧ Fronts.lastStart lines = 0) ∧
        stop ≤ A.length + ([0x0A].intercalate lines).length ∨
      start < stop ∧ stop = A.length + ([0x0A].intercalate lines).length + 1 ∧ B ≠ []

/-- There is nothing to shift past the last line. -/
theorem shiftChanges_of_lt {indent : Bool} {unit : Text} {last turns line : Nat}
    (h : last < line) : shiftChanges source indent unit last turns line = [] := by
  cases turns with
  | zero => rfl
  | succ turns => rw [shiftChanges, if_pos h]

/-- The loop goes through the lines one by one. -/
theorem shiftChanges_eq {ls : List Text} {indent : Bool} {unit : Text} {last turns : Nat}
    (hsource : source = A ++ [0x0A].intercalate (l :: ls) ++ B) (hB : ∀ u ∈ B.head?, u = 0x0A)
    (hlines : ∀ l' ∈ l :: ls, 0x0A ∉ l' ∧ 0x0D ∉ l')
    (hlast : last = A.length + Fronts.lastStart (l :: ls)) (hturns : last < A.length + turns) :
    shiftChanges source indent unit last turns A.length =
      Fronts.placed A.length ((l :: ls).map (frontOf indent unit)) := by
  -- By induction on the lines behind the first. A turn reads one line, from its start up to the
  -- line feed, and goes on behind that; the last line has none behind it.
  induction ls generalizing A l turns with
  | nil =>
    rw [Fronts.lastStart, Nat.add_zero] at hlast
    rw [List.intercalate_singleton, List.append_assoc] at hsource
    obtain ⟨turns, rfl⟩ := Nat.exists_eq_succ_of_ne_zero (n := turns) (by omega)
    have hl := hlines l List.mem_cons_self
    have hend := lineEnd_eq hsource hl hB (Nat.le_refl _) (Nat.le_add_right _ _)
    have hnext : last < ((indexOfBreak source A.length).map (· + 1)).getD (last + 1) := by
      rw [indexOfBreak_eq hsource hl.1 hB]
      split_ifs
      · exact Nat.lt_succ_self _
      · rw [Option.map_some, Option.getD_some]
        omega
    have hline : source.substring A.length (A.length + l.length : Nat) = l := by
      rw [hsource, Text.substring, Int.toNat_natCast, List.drop_left]
      exact List.take_left' (by omega)
    rw [shiftChanges, if_neg (by omega), hend, hline]
    dsimp only
    rw [shiftChanges_of_lt hnext, List.map_cons, List.map_nil, Fronts.placed, Fronts.placed]
  | cons l' ls ih =>
    rw [Fronts.lastStart] at hlast
    have hsource' : source = (A ++ l ++ [0x0A]) ++ [0x0A].intercalate (l' :: ls) ++ B := by
      rw [hsource, Fronts.intercalate_cons, Fronts.behind]
      simp only [List.append_assoc, List.cons_append, List.nil_append]
    have hlength : (A ++ l ++ [0x0A]).length = A.length + l.length + 1 := by
      rw [List.length_append, List.length_append, List.length_singleton]
    rw [Fronts.intercalate_cons, List.append_assoc, List.append_assoc] at hsource
    obtain ⟨turns, rfl⟩ := Nat.exists_eq_succ_of_ne_zero (n := turns) (by omega)
    have hl := hlines l List.mem_cons_self
    have hhead : ∀ u ∈ (Fronts.behind 0x0A (l' :: ls) ++ B).head?, u = 0x0A := fun u hu =>
      (Option.some.inj hu).symm
    have hend := lineEnd_eq hsource hl hhead (Nat.le_refl _) (Nat.le_add_right _ _)
    have hline : source.substring A.length (A.length + l.length : Nat) = l := by
      rw [hsource, Text.substring, Int.toNat_natCast, List.drop_left]
      exact List.take_left' (by omega)
    have hrec := @ih (A ++ l ++ [0x0A]) l' turns hsource'
      (fun m hm => hlines m (List.mem_cons_of_mem l hm)) (by omega) (by omega)
    rw [hlength] at hrec
    have hnext : ((indexOfBreak source A.length).map (· + 1)).getD (last + 1) =
        A.length + l.length + 1 := by
      have hne : Fronts.behind 0x0A (l' :: ls) ++ B ≠ [] := List.cons_ne_nil _ _
      rw [indexOfBreak_eq hsource hl.1 hhead, if_neg hne]
      rfl
    rw [shiftChanges, if_neg (by omega), hend, hline, hnext]
    dsimp only
    rw [hrec, List.map_cons, Fronts.placed]
    rfl

section

variable {start stop : Nat} (h : Covers source start stop A lines B)

include h

/-- The lines covered begin with the one that the selection starts in. -/
theorem Covers.exists_cons : ∃ l ls, lines = l :: ls ∧ start ≤ A.length + l.length := by
  obtain ⟨-, l, hl, hle⟩ := h.starts
  obtain ⟨ls, rfl⟩ := List.head?_eq_some_iff.1 hl
  exact ⟨l, ls, rfl, hle⟩

/-- The line of the selection's start is the first one covered. -/
theorem Covers.lineStart_start : lineStart source start = A.length := by
  obtain ⟨l, ls, rfl, hle⟩ := h.exists_cons
  have htext := h.text
  rw [Fronts.intercalate_cons, List.append_assoc, List.append_assoc] at htext
  exact lineStart_eq htext h.ended (h.plain l List.mem_cons_self).1 h.starts.1 hle

/-- The last line, which the range ends in. -/
theorem Covers.exists_last : ∃ M l', l' ∈ lines ∧ source = A ++ M ++ (l' ++ B) ∧ Ended (A ++ M) ∧
    M.length = Fronts.lastStart lines ∧
    ([0x0A].intercalate lines).length = M.length + l'.length := by
  obtain ⟨l, ls, rfl, -⟩ := h.exists_cons
  obtain ⟨M, l', hmem, heq, hlength, hM⟩ := Fronts.exists_last 0x0A l ls
  refine ⟨M, l', hmem, ?_, h.ended.append hM, hlength, by rw [heq, List.length_append]⟩
  rw [h.text, heq]
  simp only [List.append_assoc]

/-- The line of the selection's end is the last one covered, unless the end is at a line's start. -/
theorem Covers.lineStart_last :
    (if start < stop ∧ lineStart source stop = stop then lineStart source (stop - 1)
      else lineStart source stop) = A.length + Fronts.lastStart lines := by
  obtain ⟨M, l', hmem, hsource, hended, hM, hmid⟩ := h.exists_last
  have hl' := (h.plain l' hmem).1
  have hlength : (A ++ M).length = A.length + M.length := List.length_append
  rw [← hM]
  rcases h.stops with ⟨hlast, hle⟩ | ⟨hlt, rfl, hB⟩
  · have hstart : lineStart source stop = A.length + M.length := by
      rw [← hlength]
      refine lineStart_eq hsource hended hl' ?_ (by omega)
      have := h.starts.1
      omega
    rw [hstart, if_neg]
    omega
  · have hstart : lineStart source (A.length + ([0x0A].intercalate lines).length) =
        A.length + M.length := by
      rw [← hlength]
      exact lineStart_eq hsource hended hl' (by omega) (by omega)
    have hnext : lineStart source (A.length + ([0x0A].intercalate lines).length + 1) =
        A.length + ([0x0A].intercalate lines).length + 1 := by
      obtain ⟨u, B, rfl⟩ := List.exists_cons_of_ne_nil hB
      obtain rfl : u = 0x0A := h.behind u rfl
      have hB' : source = (A ++ [0x0A].intercalate lines ++ [0x0A]) ++ ([] ++ B) := by
        rw [h.text, List.nil_append, List.append_assoc _ [0x0A]]
        rfl
      have hlength' : (A ++ [0x0A].intercalate lines ++ [0x0A]).length =
          A.length + ([0x0A].intercalate lines).length + 1 := by
        rw [List.length_append, List.length_append, List.length_singleton]
      rw [← hlength']
      exact lineStart_eq hB' (ended_concat _) List.not_mem_nil (Nat.le_refl _)
        (Nat.le_add_right _ _)
    rw [if_pos ⟨hlt, hnext⟩, Nat.add_sub_cancel, hstart]

/-- A range that ends where a line begins leaves that line alone. -/
theorem Covers.stop_eq (hlt : start < stop) (hstop : lineStart source stop = stop) :
    stop = A.length + ([0x0A].intercalate lines).length + 1 := by
  obtain ⟨M, l', hmem, hsource, hended, hM, hmid⟩ := h.exists_last
  rcases h.stops with ⟨hlast, hle⟩ | ⟨-, heq, -⟩
  · have hlength : (A ++ M).length = A.length + M.length := List.length_append
    have hstart := lineStart_eq (p := stop) hsource hended (h.plain l' hmem).1 (by omega) (by omega)
    omega
  · exact heq

/-- The selection ends in the lines covered. -/
theorem Covers.stop_le : stop ≤ A.length + ([0x0A].intercalate lines).length + B.length := by
  rcases h.stops with ⟨-, hle⟩ | ⟨-, heq, hB⟩
  · omega
  · have := List.length_pos_iff.2 hB
    omega

/-- The last line covered ends where the lines do. -/
theorem Covers.lineEnd_last : lineEnd source (A.length + Fronts.lastStart lines) =
    A.length + ([0x0A].intercalate lines).length := by
  obtain ⟨M, l', hmem, hsource, -, hM, hmid⟩ := h.exists_last
  have hend := lineEnd_eq hsource (h.plain l' hmem) h.behind (Nat.le_refl _) (Nat.le_add_right _ _)
  rw [List.length_append, hM] at hend
  rw [hend, hmid, hM, Nat.add_assoc]

/-- There is no more behind the lines than what the text has there. -/
theorem Covers.length : source.length = A.length + ([0x0A].intercalate lines).length + B.length := by
  rw [h.text, List.length_append, List.length_append]

end

/-- A text is its lines, with breaks between them. -/
theorem exists_lines (text : Text) : ∃ l ls, text = [0x0A].intercalate (l :: ls) ∧
    ∀ l' ∈ l :: ls, 0x0A ∉ l' ∧ l' ⊆ text := by
  induction text with
  | nil =>
    refine ⟨[], [], rfl, fun l' hl' => ?_⟩
    rw [List.mem_singleton.1 hl']
    exact ⟨List.not_mem_nil, List.nil_subset _⟩
  | cons u text ih =>
    obtain ⟨l, ls, htext, hlines⟩ := ih
    have hsub : ∀ l' ∈ l :: ls, 0x0A ∉ l' ∧ l' ⊆ u :: text := fun l' hl' =>
      (hlines l' hl').imp_right fun h => List.subset_cons_of_subset u h
    by_cases hu : u = 0x0A
    · refine ⟨[], l :: ls, by rw [hu, htext]; rfl, fun l' hl' => ?_⟩
      rcases List.mem_cons.1 hl' with rfl | hl'
      · exact ⟨List.not_mem_nil, List.nil_subset _⟩
      · exact hsub l' hl'
    · refine ⟨u :: l, ls, ?_, fun l' hl' => ?_⟩
      · rw [htext, Fronts.intercalate_cons, Fronts.intercalate_cons]
        rfl
      · rcases List.mem_cons.1 hl' with rfl | hl'
        · have hl := hlines l List.mem_cons_self
          exact ⟨fun h => (List.mem_cons.1 h).elim (fun h => hu h.symm) hl.1,
            List.cons_subset_cons u hl.2⟩
        · exact hsub l' (List.mem_cons_of_mem l hl')

/-- Every range covers lines. -/
theorem exists_covers (start stop : Nat) (hcr : 0x0D ∉ source) (hle : start ≤ stop)
    (hstop : stop ≤ source.length) : ∃ A lines B, Covers source start stop A lines B := by
  -- The line of the start, and the one that the range ends in.
  obtain ⟨A, l, R, hsource, hA, hl, hR, hA', hl'⟩ := exists_line source (hle.trans hstop)
  obtain ⟨q, hq, hqstop⟩ : ∃ q, start ≤ q ∧
      (q = stop ∧ (start < stop → source[stop - 1]? ≠ some 0x0A) ∨
        start < stop ∧ q + 1 = stop ∧ source[q]? = some 0x0A) := by
    by_cases hbreak : start < stop ∧ source[stop - 1]? = some 0x0A
    · exact ⟨stop - 1, by omega, .inr ⟨hbreak.1, by omega, hbreak.2⟩⟩
    · exact ⟨stop, hle, .inl ⟨rfl, fun hlt h => hbreak ⟨hlt, h⟩⟩⟩
  obtain ⟨A', last, B, hsource', hended, hlast, hB, hfrom, hto⟩ :=
    exists_line source (p := q) (by omega)
  have hlength : source.length = A'.length + (last.length + B.length) := by
    rw [hsource', List.length_append, List.length_append]
  obtain ⟨mid, hmid⟩ : ∃ mid, A' ++ last = A ++ mid := by
    have hprefix : A <+: source := ⟨l ++ R, hsource.symm⟩
    have hprefix' : A' ++ last <+: source := ⟨B, by rw [hsource', List.append_assoc]⟩
    refine (List.prefix_of_prefix_length_le hprefix hprefix' ?_).imp fun _ => Eq.symm
    rw [List.length_append]
    omega
  have hmidlength : A'.length + last.length = A.length + mid.length := by
    rw [← List.length_append, hmid, List.length_append]
  obtain ⟨l₁, ls, rfl, hlines⟩ := exists_lines mid
  have htext : source = A ++ [0x0A].intercalate (l₁ :: ls) ++ B := by
    rw [← hmid, hsource', List.append_assoc]
  have hplain : ∀ m ∈ l₁ :: ls, 0x0A ∉ m ∧ 0x0D ∉ m := fun m hm =>
    (hlines m hm).imp_right fun hsub hu => hcr (by
      rw [htext]
      exact List.mem_append_left _ (List.mem_append_right _ (hsub hu)))
  have hfirst : l.length = l₁.length := by
    have hend := lineEnd_eq (p := A.length) hsource
      ⟨hl, fun hu => hcr (hsource ▸ List.mem_append_right _ (List.mem_append_left _ hu))⟩ hR
      (Nat.le_refl _) (Nat.le_add_right _ _)
    have htext' := htext
    rw [Fronts.intercalate_cons, List.append_assoc, List.append_assoc] at htext'
    have hend' := lineEnd_eq (p := A.length) htext' (hplain l₁ List.mem_cons_self)
      (fun u hu => by
        cases ls with
        | nil => exact hB u hu
        | cons l₂ ls => exact (Option.some.inj hu).symm) (Nat.le_refl _) (Nat.le_add_right _ _)
    omega
  have hlaststart : A.length + Fronts.lastStart (l₁ :: ls) = A'.length := by
    obtain ⟨M, m, hm, heq, hM, hMended⟩ := Fronts.exists_last 0x0A l₁ ls
    have hmlength : ([0x0A].intercalate (l₁ :: ls)).length = M.length + m.length := by
      rw [heq, List.length_append]
    have htext' : source = (A ++ M) ++ (m ++ B) := by
      rw [htext, heq]
      simp only [List.append_assoc]
    have hstart := lineStart_eq (p := A'.length + last.length) hsource' hended hlast
      (Nat.le_add_right _ _) (Nat.le_refl _)
    rw [lineStart_eq htext' (hA.append hMended) (hplain m hm).1
      (by rw [List.length_append]; omega) (by rw [List.length_append]; omega),
      List.length_append] at hstart
    omega
  refine ⟨A, l₁ :: ls, B, htext, hA, hB, hplain, ⟨hA', l₁, rfl, by omega⟩, ?_⟩
  rcases hqstop with ⟨rfl, hbreak⟩ | ⟨hlt, rfl, hbreak⟩
  · refine .inl ⟨?_, by omega⟩
    rcases Nat.lt_or_ge (A.length + Fronts.lastStart (l₁ :: ls)) q with hlt | hge
    · exact .inl hlt
    · -- The line begins where the range ends, so the range does not begin before.
      have heq : start = q := by
        by_contra hne
        rcases List.eq_nil_or_concat A' with rfl | ⟨A', u, rfl⟩
        · rw [List.length_nil] at hlaststart
          omega
        · rw [List.concat_eq_append] at hended hsource' hlaststart hfrom
          rw [List.length_append, List.length_singleton] at hlaststart hfrom
          refine hbreak (by omega) ?_
          rw [hsource', List.append_assoc, show q - 1 = A'.length by omega,
            List.getElem?_append_right (Nat.le_refl _), Nat.sub_self,
            hended u List.getLast?_concat]
          rfl
      have hstarts := lineStart_eq (p := start) hsource hA hl hA' hl'
      rw [lineStart_eq hsource' hended hlast (by omega) (by omega)] at hstarts
      exact .inr ⟨heq, by omega⟩
  · -- The line ends with the break before the range's end.
    have hq' : q = A'.length + last.length := by
      by_contra hne
      rw [hsource', List.getElem?_append_right hfrom, List.getElem?_append_left (by omega)] at hbreak
      exact hlast (List.mem_of_getElem? hbreak)
    refine .inr ⟨hlt, by omega, ?_⟩
    rintro rfl
    rw [List.length_nil] at hlength
    omega

/-- What takes less off a line than the line has. -/
theorem frontOf_cut_le (indent : Bool) (unit l : Text) :
    (frontOf indent unit l).cut ≤ (frontOf indent unit l).line.length := by
  have hspace : (codeLeadingWhitespace l).length ≤ l.length := (List.takeWhile_prefix _).length_le
  rw [frontOf]
  dsimp only
  cases indent with
  | true => exact Nat.zero_le _
  | false =>
    rw [if_neg Bool.false_ne_true, removedFrom]
    split_ifs with htab hlt hlt
    · obtain ⟨rest, hrest⟩ := List.head?_eq_some_iff.1 htab
      rw [hrest, List.length_cons] at hspace
      omega
    all_goals omega

/-- The fronts of lines are of these lines. -/
theorem map_line_frontOf (indent : Bool) (unit : Text) (lines : List Text) :
    (lines.map (frontOf indent unit)).map Fronts.Front.line = lines := by
  rw [List.map_map]
  exact List.map_id lines

/-- A shift changes the fronts of the lines that its selection covers. -/
theorem shift_eq (indent : Bool) (unit : Text) {base extent : Nat}
    (h : Covers source (if base < extent then base else extent)
      (if base < extent then extent else base) A lines B) (hcaret : ¬(base = extent ∧ indent)) :
    shift source base extent indent unit =
      ⟨A.length, (A.length + ([0x0A].intercalate lines).length : Nat),
        [0x0A].intercalate ((lines.map (frontOf indent unit)).map Fronts.Front.result),
        Fronts.mapped base 0 (Fronts.placed A.length (lines.map (frontOf indent unit))),
        Fronts.mapped extent 0 (Fronts.placed A.length (lines.map (frontOf indent unit)))⟩ := by
  have hfirst := h.lineStart_start
  have hlast := h.lineStart_last
  have hend := h.lineEnd_last
  obtain ⟨l, ls, rfl, -⟩ := h.exists_cons
  have hchanges : shiftChanges source indent unit (A.length + Fronts.lastStart (l :: ls))
      (A.length + Fronts.lastStart (l :: ls) + 1 - A.length) A.length =
      Fronts.placed A.length ((l :: ls).map (frontOf indent unit)) :=
    shiftChanges_eq h.text h.behind h.plain rfl (by omega)
  have htext : source = A ++
      [0x0A].intercalate (((l :: ls).map (frontOf indent unit)).map Fronts.Front.line) ++ B := by
    rw [map_line_frontOf]
    exact h.text
  have hcut : ∀ g ∈ (l :: ls).map (frontOf indent unit), g.cut ≤ g.line.length := fun g hg => by
    obtain ⟨l', -, rfl⟩ := List.mem_map.1 hg
    exact frontOf_cut_le indent unit l'
  rw [List.map_cons] at htext hcut
  have hsplice := Fronts.splice_placed htext rfl hcut
  rw [← List.map_cons] at hsplice
  rw [shift, if_neg hcaret]
  dsimp only
  rw [hfirst, hlast, hend, hchanges]
  rw [map_line_frontOf] at hsplice
  rw [hsplice]

/-! ## Tab and Shift-Tab -/

/-- What a step is: a tab, or spaces. -/
def Step (unit : Text) : Prop := unit = [0x09] ∨ ∃ k, 0 < k ∧ unit = List.replicate k 0x20

/-- A step of indentation has no break in it. -/
theorem Step.plain {unit : Text} (h : Step unit) : 0x0A ∉ unit ∧ 0x0D ∉ unit := by
  rcases h with rfl | ⟨k, -, rfl⟩
  · decide
  · exact ⟨fun h => absurd (List.eq_of_mem_replicate h) (by decide),
      fun h => absurd (List.eq_of_mem_replicate h) (by decide)⟩

/-- The lines of a text, of which some are written out. -/
theorem exists_splitOn (hA : Ended A) (hB : ∀ u ∈ B.head?, u = 0x0A) :
    ∃ La Lb : List Text, ∀ lines, lines ≠ [] → (∀ l ∈ lines, 0x0A ∉ l) →
      (A ++ [0x0A].intercalate lines ++ B).splitOn 0x0A = La ++ lines ++ Lb := by
  have hbehind : ∃ Lb : List Text, ∀ lines, lines ≠ [] → (∀ l ∈ lines, 0x0A ∉ l) →
      ([0x0A].intercalate lines ++ B).splitOn 0x0A = lines ++ Lb := by
    cases B with
    | nil =>
      refine ⟨[], fun lines hne hlines => ?_⟩
      rw [List.append_nil, List.append_nil, List.splitOn_intercalate 0x0A hlines hne]
    | cons u B =>
      obtain rfl : u = 0x0A := hB u rfl
      refine ⟨B.splitOn 0x0A, fun lines hne hlines => ?_⟩
      rw [List.splitOn_append_cons_self, List.splitOn_intercalate 0x0A hlines hne]
  obtain ⟨Lb, hLb⟩ := hbehind
  rcases List.eq_nil_or_concat A with rfl | ⟨A, u, rfl⟩
  · exact ⟨[], Lb, fun lines hne hlines => hLb lines hne hlines⟩
  · rw [List.concat_eq_append] at hA ⊢
    obtain rfl : u = 0x0A := hA u List.getLast?_concat
    refine ⟨A.splitOn 0x0A, Lb, fun lines hne hlines => ?_⟩
    rw [List.append_assoc, List.append_assoc, List.singleton_append, List.splitOn_append_cons_self,
      hLb lines hne hlines, List.append_assoc]

theorem Step.length_pos {unit : Text} (h : Step unit) : 0 < unit.length := by
  rcases h with rfl | ⟨k, hk, rfl⟩
  · exact Nat.one_pos
  · rwa [List.length_replicate]

/-- A step of indentation is spaces, or a tab. -/
theorem Step.blank {unit : Text} (h : Step unit) : ∀ u ∈ unit, (u == 0x20 || u == 0x09) = true := by
  intro u hu
  rcases h with rfl | ⟨k, -, rfl⟩
  · rw [List.mem_singleton.1 hu]
    rfl
  · rw [List.eq_of_mem_replicate hu]
    rfl

/-- White space in front of a line joins its own. -/
theorem codeLeadingWhitespace_append {w : Text} (hw : ∀ u ∈ w, (u == 0x20 || u == 0x09) = true)
    (l : Text) : codeLeadingWhitespace (w ++ l) = w ++ codeLeadingWhitespace l :=
  List.takeWhile_append_of_pos hw

/-- The step is taken off as it has been put there. -/
theorem removedFrom_append {unit : Text} (hunit : Step unit) (l : Text) :
    removedFrom unit (unit ++ l) = unit.length := by
  rw [removedFrom, codeLeadingWhitespace_append hunit.blank]
  rcases hunit with rfl | ⟨k, hk, rfl⟩
  · rfl
  · obtain ⟨k, rfl⟩ := Nat.exists_eq_succ_of_ne_zero (Nat.pos_iff_ne_zero.1 hk)
    have htab : List.replicate (k + 1) (0x20 : UInt16) ≠ [0x09] := by
      rw [List.replicate_succ]
      exact fun h => absurd (List.cons.inj h).1 (by decide)
    have hhead : (List.replicate (k + 1) 0x20 ++ codeLeadingWhitespace l).head? ≠ some 0x09 := by
      rw [List.replicate_succ]
      exact fun h => absurd (Option.some.inj h) (by decide)
    rw [if_neg htab, if_neg hhead, List.length_append, if_neg (by omega)]

/-- The unit that is inferred is a step of indentation. -/
theorem step_codeIndentUnit (text language : Text) : Step (codeIndentUnit text language) := by
  rw [codeIndentUnit]
  split_ifs
  · exact .inl rfl
  · exact .inr ⟨4, by decide, by decide⟩
  · exact .inr ⟨2, by decide, by decide⟩

/-- The step is inferred again from the lines that it is put before. -/
theorem codeIndentUnit_indented (language : Text) (hA : Ended A) (hB : ∀ u ∈ B.head?, u = 0x0A)
    (hne : lines ≠ []) (hlines : ∀ l ∈ lines, 0x0A ∉ l)
    (hsource : source = A ++ [0x0A].intercalate lines ++ B) :
    codeIndentUnit
        (A ++ [0x0A].intercalate (lines.map (codeIndentUnit source language ++ ·)) ++ B) language =
      codeIndentUnit source language := by
  obtain ⟨La, Lb, hsplit⟩ := exists_splitOn hA hB
  have hstep := step_codeIndentUnit source language
  have hlines' : ∀ l ∈ lines.map (codeIndentUnit source language ++ ·), 0x0A ∉ l := fun l hl => by
    obtain ⟨l, hmem, rfl⟩ := List.mem_map.1 hl
    exact fun h => (List.mem_append.1 h).elim hstep.plain.1 (hlines l hmem)
  have hold := hsplit lines hne hlines
  have hnew := hsplit _ (fun h => hne (List.map_eq_nil_iff.1 h)) hlines'
  rw [← hsource] at hold
  by_cases htab : (source.splitOn 0x0A).any fun line => (codeLeadingWhitespace line).contains 0x09
  · have hunit : codeIndentUnit source language = [0x09] := by rw [codeIndentUnit, if_pos htab]
    obtain ⟨l, ls, rfl⟩ := List.exists_cons_of_ne_nil hne
    rw [hunit] at hnew ⊢
    rw [codeIndentUnit, hnew, if_pos]
    rw [List.any_append, List.any_append, List.map_cons, List.any_cons]
    have hl : (codeLeadingWhitespace ([0x09] ++ l)).contains 0x09 = true := by
      rw [codeLeadingWhitespace_append (List.forall_mem_singleton.2 rfl)]
      rfl
    rw [hl, Bool.true_or, Bool.or_true, Bool.true_or]
  · have hno : ¬((A ++ [0x0A].intercalate (lines.map (codeIndentUnit source language ++ ·)) ++
        B).splitOn 0x0A).any fun line => (codeLeadingWhitespace line).contains 0x09 := by
      have hspaces : 0x09 ∉ codeIndentUnit source language := by
        rw [codeIndentUnit, if_neg htab]
        split_ifs <;> decide
      rw [hold, List.any_append, List.any_append] at htab
      rw [hnew, List.any_append, List.any_append, List.any_map]
      have hsame (l : Text) : (codeLeadingWhitespace (codeIndentUnit source language ++ l)).contains
          0x09 = (codeLeadingWhitespace l).contains 0x09 := by
        rw [codeLeadingWhitespace_append hstep.blank, List.contains_eq_mem, List.contains_eq_mem,
          decide_eq_decide, List.mem_append, or_iff_right hspaces]
      simpa only [Function.comp_def, hsame] using htab
    rw [codeIndentUnit, if_neg hno, codeIndentUnit, if_neg htab]

section

variable {start stop : Nat} {unit : Text} (h : Covers source start stop A lines B)

/-- The lines with a step before each, as Tab writes them. -/
theorem map_result_indent (unit : Text) (lines : List Text) :
    (lines.map (frontOf true unit)).map Fronts.Front.result = lines.map (unit ++ ·) := by
  rw [List.map_map]
  rfl

/-- Shift-Tab takes off what Tab has put there. -/
theorem map_frontOf_outdent (hunit : Step unit) (lines : List Text) :
    (lines.map (unit ++ ·)).map (frontOf false unit) =
      (lines.map (frontOf true unit)).map Fronts.Front.undo := by
  rw [List.map_map, List.map_map]
  refine List.map_congr_left fun l _ => ?_
  rw [Function.comp_apply, frontOf, removedFrom_append hunit]
  rfl

/-- Indenting cuts nothing. -/
theorem frontOf_indent_cut (unit : Text) (lines : List Text) :
    ∀ f ∈ lines.map (frontOf true unit), f.cut = 0 := fun f hf => by
  obtain ⟨l, -, rfl⟩ := List.mem_map.1 hf
  rfl

include h

/-- A position behind the lines stays there. -/
theorem Covers.mapped_behind {m : Nat}
    (hstop : stop = A.length + ([0x0A].intercalate lines).length + 1)
    (hm : Fronts.mapped stop 0 (Fronts.placed A.length (lines.map (frontOf true unit))) = m) :
    m = A.length + ([0x0A].intercalate (lines.map (unit ++ ·))).length + 1 := by
  have hcuts := frontOf_indent_cut unit lines
  have hlines := map_line_frontOf true unit lines
  have hresult := map_result_indent unit lines
  obtain ⟨l, ls, rfl, -⟩ := h.exists_cons
  rw [List.map_cons] at hcuts hlines hresult hm
  have hbehind := @Fronts.mapped_behind _ 0x0A _ _ stop 0 A.length
    (fun g hg => hcuts g hg ▸ Nat.zero_le _) (by
      rw [hlines]
      omega)
  rw [hm, hlines, hresult] at hbehind
  omega

/-- The range goes with its lines. -/
theorem Covers.indented (hlt : start < stop) (hunit : 0x0A ∉ unit ∧ 0x0D ∉ unit) {m n : Nat}
    (hm : Fronts.mapped start 0 (Fronts.placed A.length (lines.map (frontOf true unit))) = m)
    (hn : Fronts.mapped stop 0 (Fronts.placed A.length (lines.map (frontOf true unit))) = n) :
    Covers (A ++ [0x0A].intercalate (lines.map (unit ++ ·)) ++ B) m n A (lines.map (unit ++ ·))
      B := by
  have hcuts := frontOf_indent_cut unit lines
  have hlines := map_line_frontOf true unit lines
  have hresult := map_result_indent unit lines
  have hstarts := h.starts.1
  have hstops := h.stops
  obtain ⟨l, ls, rfl, hl⟩ := h.exists_cons
  have hplain := h.plain
  have hto := hn
  rw [List.map_cons] at hcuts hlines hresult hm hto
  have hcut : ∀ g ∈ frontOf true unit l :: ls.map (frontOf true unit), g.cut ≤ g.line.length :=
    fun g hg => hcuts g hg ▸ Nat.zero_le _
  have hge := @Fronts.add_le_mapped _ _ hcuts start 0 A.length
  have hfirst := @Fronts.mapped_first _ _ (ls.map (frontOf true unit)) start 0 A.length
    (hcut _ List.mem_cons_self) (by
      rw [frontOf]
      dsimp only
      omega)
  have hlt' : (m : Int) < n := by
    rw [← hm, ← hto]
    exact Fronts.mapped_lt hcuts (by omega)
  rw [hm] at hge hfirst
  refine ⟨rfl, h.ended, h.behind, fun l' hl' => ?_,
    ⟨by omega, unit ++ l, by rw [List.map_cons]; rfl, ?_⟩, ?_⟩
  · obtain ⟨l', hmem, rfl⟩ := List.mem_map.1 hl'
    exact ⟨fun hu => (List.mem_append.1 hu).elim hunit.1 (hplain l' hmem).1,
      fun hu => (List.mem_append.1 hu).elim hunit.2 (hplain l' hmem).2⟩
  -- The start stays on the first line, and the end on the last one, or behind its line feed.
  · have hlength : (frontOf true unit l).result.length = (unit ++ l).length := rfl
    omega
  · rcases hstops with ⟨hlast, hle⟩ | ⟨-, heq, hB⟩
    · have hlast' := @Fronts.lastStart_lt_mapped _ _ _ stop 0 A.length hcuts (by
        rw [hlines]
        omega)
      have hle' := (@Fronts.mapped_placed_bounds _ 0x0A _ _ stop 0 A.length 0 hcut (by omega) (by
        rw [hlines]
        omega)).2
      rw [hto, hresult] at hlast' hle'
      exact .inl ⟨.inl (by omega), by omega⟩
    · exact .inr ⟨by omega, h.mapped_behind heq hn, hB⟩

end

/-- Shift-Tab after Tab gives the body and the selection back, and both leave a line alone where a
    selection ends at its start. -/
theorem shift_undo {base extent : Nat} (language : Text) (hcr : 0x0D ∉ source)
    (hbase : base ≤ source.length) (hextent : extent ≤ source.length) (hne : base ≠ extent) :
    ∃ base' extent' : Nat,
      let indented := shift source base extent true (codeIndentUnit source language)
      let result := indented.apply source
      let outdented := shift result base' extent' false (codeIndentUnit result language)
      (indented.base = base' ∧ indented.extent = extent' ∧ base' ≤ result.length ∧
          extent' ≤ result.length) ∧
        outdented.apply result = source ∧ outdented.base = base ∧ outdented.extent = extent ∧
        (lineStart source (max base extent) = max base extent →
          indented.stop = (max base extent - 1 : Nat) ∧
            outdented.stop = (max base' extent' - 1 : Nat)) := by
  obtain ⟨A, lines, B, h⟩ := exists_covers (if base < extent then base else extent)
    (if base < extent then extent else base) hcr (by split_ifs <;> omega) (by split_ifs <;> omega)
  have hlt : (if base < extent then base else extent) < if base < extent then extent else base := by
    split_ifs <;> omega
  have hstep := step_codeIndentUnit source language
  have hunit : 0x0A ∉ codeIndentUnit source language ∧ 0x0D ∉ codeIndentUnit source language :=
    hstep.plain
  have hindented := shift_eq true (codeIndentUnit source language) h
    fun hc => hne hc.1
  have hcuts := frontOf_indent_cut (codeIndentUnit source language) lines
  -- Where the positions go.
  have hto (p : Nat) : ∃ m : Nat, Fronts.mapped p 0 (Fronts.placed A.length
      (lines.map (frontOf true (codeIndentUnit source language)))) = m :=
    Int.eq_ofNat_of_zero_le (by
      have := @Fronts.add_le_mapped _ _ hcuts p 0 A.length
      omega)
  obtain ⟨base', hbase'⟩ := hto base
  obtain ⟨extent', hextent'⟩ := hto extent
  have horder : base < extent ↔ base' < extent' := by
    have hkeep (p q : Nat) (hpq : p < q) :=
      @Fronts.mapped_lt _ _ hcuts p q 0 A.length (Int.ofNat_lt.2 hpq)
    refine ⟨fun hlt => ?_, fun hlt => ?_⟩
    · have := hkeep base extent hlt
      omega
    · by_contra hge
      have := hkeep extent base (by omega)
      omega
  have hcovers := h.indented (m := if base' < extent' then base' else extent')
    (n := if base' < extent' then extent' else base') hlt hunit (by
      rw [← if_congr horder rfl rfl]
      split_ifs
      · exact hbase'
      · exact hextent') (by
      rw [← if_congr horder rfl rfl]
      split_ifs
      · exact hextent'
      · exact hbase')
  obtain ⟨l, ls, hcons, -⟩ := h.exists_cons
  have hagain := codeIndentUnit_indented language h.ended h.behind
    (hcons ▸ List.cons_ne_nil l ls) (fun l hl => (h.plain l hl).1) h.text
  have houtdented := shift_eq false (codeIndentUnit source language) hcovers
    fun hc => Bool.false_ne_true hc.2
  rw [map_frontOf_outdent hstep] at houtdented
  refine ⟨base', extent', ?_⟩
  have hresult : (shift source base extent true (codeIndentUnit source language)).apply source =
      A ++ [0x0A].intercalate (lines.map (codeIndentUnit source language ++ ·)) ++ B := by
    rw [hindented, map_result_indent]
    exact replaceRange_middle h.text
  have hback (p m : Nat) (hm : Fronts.mapped p 0 (Fronts.placed A.length
      (lines.map (frontOf true (codeIndentUnit source language)))) = m) :
      Fronts.mapped m 0 (Fronts.placed A.length ((lines.map
        (frontOf true (codeIndentUnit source language))).map Fronts.Front.undo)) = p := by
    rw [← hm]
    exact @Fronts.mapped_undo _ _ hcuts p 0 A.length A.length (Int.add_zero _).symm
  have hstop' := hcovers.stop_le
  have hstart' := hcovers.starts.1
  dsimp only
  rw [hresult, hagain, houtdented, hindented]
  refine ⟨⟨hbase', hextent', ?_, ?_⟩, ?_, hback base base' hbase', hback extent extent' hextent', ?_⟩
  · rw [hcovers.length]
    split_ifs at hstop' hstart' <;> omega
  · rw [hcovers.length]
    split_ifs at hstop' hstart' <;> omega
  · have hlines : ((lines.map (frontOf true (codeIndentUnit source language))).map
        Fronts.Front.undo).map Fronts.Front.result = lines := by
      rw [List.map_map, List.map_map]
      refine (List.map_congr_left fun l _ => ?_).trans (List.map_id lines)
      rw [Function.comp_apply, Function.comp_apply, Fronts.Front.undo_result]
      rfl
    rw [hlines, h.text]
    exact replaceRange_middle rfl
  · intro hline
    have hmax : max base extent = if base < extent then extent else base := by
      split_ifs <;> omega
    have hmax' : max base' extent' = if base' < extent' then extent' else base' := by
      split_ifs <;> omega
    rw [hmax] at hline ⊢
    rw [hmax']
    have heq := h.stop_eq hlt hline
    have heq' := h.mapped_behind heq (m := if base' < extent' then extent' else base') (by
      rw [← if_congr horder rfl rfl]
      split_ifs
      · exact hextent'
      · exact hbase')
    rw [heq, heq', Nat.add_sub_cancel, Nat.add_sub_cancel]
    exact ⟨rfl, rfl⟩

end

end CodeMirror

end Flark
