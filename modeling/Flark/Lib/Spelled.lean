import Mathlib.Data.List.Basic

/-!
# Spelled lines

Lines of which a text shows the contents, with a break between two of them, while a source spells
each with an indent before it and an ending behind it. An edit of the text replaces a stretch of
it; what the source spells there is replaced by the spelling of the new stretch, where a break is
spelled with the ending of a line and the indent of the next.

* `shown`, `spell`, `offset`: what the lines show, what they are in the source, and where a unit
  shown is spelled;
* `units`, `linesFrom`: the lines as units with a spelling each, and back;
* `spell_splice`: a stretch of the units replaced with others.
-/

namespace Flark

namespace Spelled

variable {α : Type*}

/-- A line of a source: what is before its content, the content, and what ends it. -/
structure Line (α : Type*) where
  indent : List α
  content : List α
  eol : List α
  deriving DecidableEq

def Line.spelled (l : Line α) : List α := l.indent ++ l.content ++ l.eol

theorem Line.length_spelled (l : Line α) :
    l.spelled.length = l.indent.length + l.content.length + l.eol.length := by
  rw [spelled, List.length_append, List.length_append]

/-- The lines as the source has them. -/
def spell (lines : List (Line α)) : List α := lines.flatMap Line.spelled

theorem spell_cons (l : Line α) (lines : List (Line α)) :
    spell (l :: lines) = l.spelled ++ spell lines := rfl

/-- The lines as the text has them. -/
def shown (br : α) : List (Line α) → List α
  | [] => []
  | [l] => l.content
  | l :: l' :: lines => l.content ++ br :: shown br (l' :: lines)

theorem shown_cons_cons (br : α) (l l' : Line α) (lines : List (Line α)) :
    shown br (l :: l' :: lines) = l.content ++ br :: shown br (l' :: lines) := rfl

/-- What is shown is a break, or of the content of a line. -/
theorem mem_shown {br u : α} {lines : List (Line α)} (h : u ∈ shown br lines) :
    u = br ∨ ∃ l ∈ lines, u ∈ l.content := by
  induction lines with
  | nil => cases h
  | cons l lines ih =>
    cases lines with
    | nil => exact Or.inr ⟨l, List.mem_cons_self, h⟩
    | cons l' lines =>
      rw [shown_cons_cons, List.mem_append, List.mem_cons] at h
      rcases h with h | h | h
      · exact Or.inr ⟨l, List.mem_cons_self, h⟩
      · exact Or.inl h
      · obtain hbr | ⟨l'', hl, hu⟩ := ih h
        · exact Or.inl hbr
        · exact Or.inr ⟨l'', List.mem_cons_of_mem l hl, hu⟩

/-- Every line but the last ends in a break. -/
def Broken (isBreak : List α → Prop) : List (Line α) → Prop
  | [] => True
  | [_] => True
  | l :: l' :: lines => isBreak l.eol ∧ Broken isBreak (l' :: lines)

/-- Where the source has a unit of the text; for a break, the end of its line's content. -/
def offset : List (Line α) → Nat → Nat
  | [], _ => 0
  | l :: lines, o =>
    if o ≤ l.content.length then l.indent.length + o
    else l.spelled.length + offset lines (o - l.content.length - 1)

/-- A place in the content of the first line stands behind its indent. -/
theorem offset_cons_of_le {l : Line α} {lines : List (Line α)} {o : Nat}
    (h : o ≤ l.content.length) : offset (l :: lines) o = l.indent.length + o := if_pos h

/-- A place past the first line is looked for in the others. -/
theorem offset_cons_of_lt {l : Line α} {lines : List (Line α)} {o : Nat}
    (h : l.content.length < o) : offset (l :: lines) o =
      l.spelled.length + offset lines (o - l.content.length - 1) := if_neg (Nat.not_le.2 h)

/-- A unit of the text with its spelling. -/
inductive Glyph (α : Type*)
  | unit (u : α)
  | newline (eol indent : List α)

namespace Glyph

def shown (br : α) : Glyph α → α
  | unit u => u
  | newline _ _ => br

def spelled : Glyph α → List α
  | unit u => [u]
  | newline eol indent => eol ++ indent

@[simp] theorem spelled_unit (u : α) : (unit u).spelled = [u] := rfl

@[simp] theorem spelled_newline (eol indent : List α) :
    (newline eol indent).spelled = eol ++ indent := rfl

end Glyph

/-- The units that lines show. -/
def units : List (Line α) → List (Glyph α)
  | [] => []
  | [l] => l.content.map Glyph.unit
  | l :: l' :: lines => l.content.map Glyph.unit ++ Glyph.newline l.eol l'.indent :: units (l' :: lines)

theorem units_cons_cons (l l' : Line α) (lines : List (Line α)) : units (l :: l' :: lines) =
    l.content.map Glyph.unit ++ Glyph.newline l.eol l'.indent :: units (l' :: lines) := rfl

/-- The lines that units make, the last of which ends with `last`; the first has an indent and
    some content so far. -/
def linesFrom (last : List α) : (indent content : List α) → List (Glyph α) → List (Line α)
  | indent, content, [] => [⟨indent, content, last⟩]
  | indent, content, .unit u :: gs => linesFrom last indent (content ++ [u]) gs
  | indent, content, .newline eol next :: gs => ⟨indent, content, eol⟩ :: linesFrom last next [] gs

section

variable {last indent content : List α} {gs : List (Glyph α)}

theorem linesFrom_nil : linesFrom last indent content [] = [⟨indent, content, last⟩] := rfl

theorem linesFrom_cons_unit (u : α) : linesFrom last indent content (.unit u :: gs) =
    linesFrom last indent (content ++ [u]) gs := rfl

theorem linesFrom_cons_newline (eol next : List α) :
    linesFrom last indent content (.newline eol next :: gs) =
      ⟨indent, content, eol⟩ :: linesFrom last next [] gs := rfl

/-- Lines made of units spell what the units spell. -/
theorem spell_linesFrom :
    spell (linesFrom last indent content gs) = indent ++ content ++ gs.flatMap Glyph.spelled ++ last := by
  induction gs generalizing indent content with
  | nil => simp [linesFrom_nil, spell, Line.spelled]
  | cons g gs ih =>
    cases g with
    | unit u => rw [linesFrom_cons_unit, ih, List.flatMap_cons, Glyph.spelled_unit]; simp
    | newline eol next =>
      rw [linesFrom_cons_newline, spell_cons, ih, List.flatMap_cons, Glyph.spelled_newline,
        Line.spelled]
      simp

/-- There is always a line. -/
theorem linesFrom_ne_nil : linesFrom last indent content gs ≠ [] := by
  induction gs generalizing indent content with
  | nil => exact List.cons_ne_nil _ _
  | cons g gs ih =>
    cases g with
    | unit u => exact ih
    | newline eol next => exact List.cons_ne_nil _ _

/-- Lines made of units show what the units show. -/
theorem shown_linesFrom (br : α) :
    shown br (linesFrom last indent content gs) = content ++ gs.map (Glyph.shown br) := by
  induction gs generalizing indent content with
  | nil => exact (List.append_nil content).symm
  | cons g gs ih =>
    cases g with
    | unit u => rw [linesFrom_cons_unit, ih, List.map_cons, List.append_assoc]; rfl
    | newline eol next =>
      rw [linesFrom_cons_newline, List.map_cons]
      have hrest := @ih next []
      cases hlines : linesFrom last next [] gs with
      | nil => exact absurd hlines linesFrom_ne_nil
      | cons l lines =>
        rw [hlines] at hrest
        rw [shown_cons_cons, hrest]
        rfl

/-- A place in the content that is there already is behind the indent. -/
theorem offset_linesFrom_content {o : Nat} (ho : o ≤ content.length) :
    offset (linesFrom last indent content gs) o = indent.length + o := by
  induction gs generalizing indent content with
  | nil => exact offset_cons_of_le ho
  | cons g gs ih =>
    cases g with
    | unit u => exact ih (by rw [List.length_append]; omega)
    | newline eol next => exact offset_cons_of_le ho

/-- A place among the units is behind what the units before it spell. -/
theorem offset_linesFrom {k : Nat} (hk : k ≤ gs.length) :
    offset (linesFrom last indent content gs) (content.length + k) =
      indent.length + content.length + ((gs.take k).flatMap Glyph.spelled).length := by
  induction gs generalizing indent content k with
  | nil =>
    obtain rfl : k = 0 := Nat.le_zero.1 hk
    rw [Nat.add_zero, offset_linesFrom_content (Nat.le_refl _)]
    rfl
  | cons g gs ih =>
    cases k with
    | zero => rw [Nat.add_zero, offset_linesFrom_content (Nat.le_refl _)]; rfl
    | succ k =>
      rw [List.length_cons, Nat.succ_le_succ_iff] at hk
      rw [List.take_succ_cons, List.flatMap_cons, List.length_append]
      cases g with
      | unit u =>
        have hrest := @ih indent (content ++ [u]) k hk
        rw [List.length_append, List.length_singleton] at hrest
        rw [linesFrom_cons_unit, show content.length + (k + 1) = content.length + 1 + k by omega,
          hrest, Glyph.spelled_unit, List.length_singleton]
        omega
      | newline eol next =>
        have hrest := @ih next [] k hk
        rw [List.length_nil, Nat.zero_add, Nat.add_zero] at hrest
        rw [linesFrom_cons_newline, offset_cons_of_lt (by dsimp only; omega),
          show content.length + (k + 1) - content.length - 1 = k by omega, hrest,
          Glyph.spelled_newline, Line.spelled]
        simp only [List.length_append]
        omega

/-- A piece without breaks goes on with the line. -/
theorem linesFrom_unit (piece : List α) :
    linesFrom last indent content (piece.map Glyph.unit ++ gs) =
      linesFrom last indent (content ++ piece) gs := by
  induction piece generalizing content with
  | nil => rw [List.map_nil, List.nil_append, List.append_nil]
  | cons u piece ih => rw [List.map_cons, List.cons_append, linesFrom_cons_unit, ih, List.append_assoc]; rfl

/-- What the last line ends with. -/
def lastEol (lines : List (Line α)) : List α := (lines.getLast?.map Line.eol).getD []

/-- The lines are made of their units. -/
theorem linesFrom_units (l : Line α) (lines : List (Line α)) :
    linesFrom (lastEol (l :: lines)) l.indent [] (units (l :: lines)) = l :: lines := by
  induction lines generalizing l with
  | nil =>
    have hunits : units [l] = l.content.map Glyph.unit ++ [] := (List.append_nil _).symm
    rw [hunits, linesFrom_unit]
    rfl
  | cons l' lines ih =>
    rw [units_cons_cons, linesFrom_unit, linesFrom_cons_newline, List.nil_append]
    exact congrArg (List.cons l) (ih l')

/-- Lines spell what their units spell, between the first indent and the last end. -/
theorem spell_units (l : Line α) (lines : List (Line α)) : spell (l :: lines) =
    l.indent ++ (units (l :: lines)).flatMap Glyph.spelled ++ lastEol (l :: lines) := by
  conv_lhs => rw [← linesFrom_units l lines, spell_linesFrom, List.append_nil]

/-- Lines show what their units show. -/
theorem shown_units (br : α) (l : Line α) (lines : List (Line α)) :
    shown br (l :: lines) = (units (l :: lines)).map (Glyph.shown br) := by
  conv_lhs => rw [← linesFrom_units l lines, shown_linesFrom, List.nil_append]

/-- A place is behind what the units before it spell. -/
theorem offset_units {l : Line α} {lines : List (Line α)} {k : Nat}
    (hk : k ≤ (units (l :: lines)).length) : offset (l :: lines) k =
      l.indent.length + (((units (l :: lines)).take k).flatMap Glyph.spelled).length := by
  have h := @offset_linesFrom _ (lastEol (l :: lines)) l.indent [] _ _ hk
  rw [linesFrom_units, List.length_nil, Nat.zero_add, Nat.add_zero] at h
  exact h

/-! ## Other contents -/

/-- Lines with other contents. -/
def withContents (lines : List (Line α)) (contents : List (List α)) : List (Line α) :=
  List.zipWith (fun l piece => { l with content := piece }) lines contents

section

variable {lines : List (Line α)} {contents : List (List α)}

theorem withContents_cons (l : Line α) (lines : List (Line α)) (piece : List α)
    (contents : List (List α)) : withContents (l :: lines) (piece :: contents) =
      { l with content := piece } :: withContents lines contents := rfl

/-- What is around the contents is kept. -/
theorem around_withContents (h : contents.length = lines.length) :
    (withContents lines contents).map Line.indent = lines.map Line.indent ∧
      (withContents lines contents).map Line.eol = lines.map Line.eol := by
  induction lines generalizing contents with
  | nil => exact ⟨rfl, rfl⟩
  | cons l lines ih =>
    cases contents with
    | nil => cases h
    | cons piece contents =>
      obtain ⟨hindent, heol⟩ := ih (Nat.succ.inj h)
      exact ⟨congrArg (List.cons l.indent) hindent, congrArg (List.cons l.eol) heol⟩

/-- Lines with other contents show these, with breaks between them. -/
theorem shown_withContents (br : α) (h : contents.length = lines.length) :
    shown br (withContents lines contents) = [br].intercalate contents := by
  induction lines generalizing contents with
  | nil =>
    rw [List.length_eq_zero_iff.1 h]
    rfl
  | cons l lines ih =>
    cases contents with
    | nil => cases h
    | cons piece contents =>
      have hrest := ih (Nat.succ.inj h)
      cases contents with
      | nil =>
        rw [List.length_eq_zero_iff.1 (Nat.succ.inj h).symm, List.intercalate_singleton]
        rfl
      | cons piece' contents =>
        cases lines with
        | nil => cases h
        | cons l' lines =>
          rw [List.intercalate_cons_cons, ← hrest, List.append_assoc]
          rfl

/-- Other contents leave the breaks as they were. -/
theorem broken_withContents {isBreak : List α → Prop} (hlines : Broken isBreak lines)
    (h : contents.length = lines.length) : Broken isBreak (withContents lines contents) := by
  induction lines generalizing contents with
  | nil => exact trivial
  | cons l lines ih =>
    cases contents with
    | nil => cases h
    | cons piece contents =>
      cases lines with
      | nil =>
        rw [List.length_eq_zero_iff.1 (Nat.succ.inj h)]
        exact trivial
      | cons l' lines =>
        cases contents with
        | nil => cases h
        | cons piece' contents => exact ⟨hlines.1, ih hlines.2 (Nat.succ.inj h)⟩

/-- A line with another content has the indent of one there was. -/
theorem mem_withContents {l : Line α} (hl : l ∈ withContents lines contents) :
    (∃ l' ∈ lines, l'.indent = l.indent) ∧ l.content ∈ contents := by
  obtain ⟨i, hi, rfl⟩ := List.getElem_of_mem hl
  rw [withContents, List.length_zipWith] at hi
  simp only [withContents, List.getElem_zipWith]
  exact ⟨⟨_, List.getElem_mem (by omega), rfl⟩, List.getElem_mem _⟩

/-- The pieces of a text between its breaks hold the other units of it. -/
theorem mem_splitOn [BEq α] [LawfulBEq α] {br : α} {text piece : List α}
    (h : piece ∈ text.splitOn br) : ∀ u ∈ piece, u ∈ text ∧ u ≠ br := by
  induction text generalizing piece with
  | nil =>
    rw [List.splitOn_nil, List.mem_singleton] at h
    rw [h]
    exact fun u hu => absurd hu List.not_mem_nil
  | cons v text ih =>
    rw [List.splitOn_cons_eq_if_modifyHead] at h
    have hrest : ∀ piece ∈ text.splitOn br, ∀ u ∈ piece, u ∈ v :: text ∧ u ≠ br :=
      fun piece hpiece u hu => ⟨List.mem_cons_of_mem v (ih hpiece u hu).1, (ih hpiece u hu).2⟩
    split at h
    · rcases List.mem_cons.1 h with rfl | h
      · exact fun u hu => absurd hu List.not_mem_nil
      · exact hrest piece h
    · next hbr =>
      cases hpieces : text.splitOn br with
      | nil => exact absurd hpieces (List.splitOn_ne_nil br text)
      | cons first pieces =>
        rw [hpieces] at h hrest
        rcases List.mem_cons.1 h with rfl | h
        · -- The unit is put before the first piece.
          refine List.forall_mem_cons.2 ⟨⟨List.mem_cons_self, fun heq => hbr ?_⟩,
            hrest first List.mem_cons_self⟩
          exact beq_iff_eq.2 heq
        · exact hrest piece (List.mem_cons_of_mem _ h)

end

/-! ## Where a line comes from -/

/-- The indent and the end of a line are the ones given, or stand in a break. -/
theorem mem_linesFrom {l : Line α} (hl : l ∈ linesFrom last indent content gs) :
    (l.indent = indent ∨ ∃ eol, Glyph.newline eol l.indent ∈ gs) ∧
      (l.eol = last ∨ ∃ next, Glyph.newline l.eol next ∈ gs) := by
  induction gs generalizing indent content with
  | nil =>
    rw [linesFrom_nil, List.mem_singleton] at hl
    rw [hl]
    exact ⟨Or.inl rfl, Or.inl rfl⟩
  | cons g gs ih =>
    cases g with
    | unit u =>
      obtain ⟨hindent, heol⟩ := ih hl
      exact ⟨hindent.imp_right fun ⟨eol, h⟩ => ⟨eol, List.mem_cons_of_mem _ h⟩,
        heol.imp_right fun ⟨next, h⟩ => ⟨next, List.mem_cons_of_mem _ h⟩⟩
    | newline eol next =>
      rw [linesFrom_cons_newline, List.mem_cons] at hl
      rcases hl with rfl | hl
      · exact ⟨Or.inl rfl, Or.inr ⟨next, List.mem_cons_self⟩⟩
      · obtain ⟨hindent, heol⟩ := ih hl
        refine ⟨Or.inr ?_, heol.imp_right fun ⟨next, h⟩ => ⟨next, List.mem_cons_of_mem _ h⟩⟩
        rcases hindent with hindent | ⟨eol', h⟩
        · exact ⟨eol, hindent ▸ List.mem_cons_self⟩
        · exact ⟨eol', List.mem_cons_of_mem _ h⟩

/-- What holds of every unit holds of the contents. -/
theorem content_linesFrom {p : α → Prop} (hcontent : ∀ u ∈ content, p u)
    (hgs : ∀ u, Glyph.unit u ∈ gs → p u) :
    ∀ l ∈ linesFrom last indent content gs, ∀ u ∈ l.content, p u := by
  induction gs generalizing indent content with
  | nil =>
    intro l hl
    rw [linesFrom_nil, List.mem_singleton] at hl
    rw [hl]
    exact hcontent
  | cons g gs ih =>
    have hrest : ∀ u, Glyph.unit u ∈ gs → p u := fun u hu => hgs u (List.mem_cons_of_mem _ hu)
    cases g with
    | unit u =>
      refine ih (fun v hv => ?_) hrest
      rcases List.mem_append.1 hv with hv | hv
      · exact hcontent v hv
      · rw [List.mem_singleton.1 hv]
        exact hgs u List.mem_cons_self
    | newline eol next =>
      rw [linesFrom_cons_newline]
      exact List.forall_mem_cons.2 ⟨hcontent, ih (fun u hu => absurd hu List.not_mem_nil) hrest⟩

/-- A break among the units has the end of one line and the indent of another. -/
theorem newline_mem_units {eol next : List α} {lines : List (Line α)}
    (h : Glyph.newline eol next ∈ units lines) :
    (∃ l ∈ lines, l.eol = eol) ∧ ∃ l ∈ lines, l.indent = next := by
  induction lines with
  | nil => cases h
  | cons l lines ih =>
    have hcontent : Glyph.newline eol next ∉ l.content.map Glyph.unit := fun h => by
      obtain ⟨u, -, hu⟩ := List.mem_map.1 h
      cases hu
    cases lines with
    | nil => exact absurd h hcontent
    | cons l' lines =>
      rw [units_cons_cons, List.mem_append, List.mem_cons] at h
      rcases h with h | h | h
      · exact absurd h hcontent
      · cases h
        exact ⟨⟨l, List.mem_cons_self, rfl⟩, l', List.mem_cons_of_mem _ List.mem_cons_self, rfl⟩
      · obtain ⟨⟨a, ha, heol⟩, b, hb, hnext⟩ := ih h
        exact ⟨⟨a, List.mem_cons_of_mem _ ha, heol⟩, b, List.mem_cons_of_mem _ hb, hnext⟩

/-- Lines end in breaks if all breaks among the units do. -/
theorem broken_linesFrom {isBreak : List α → Prop}
    (hgs : ∀ eol next, Glyph.newline eol next ∈ gs → isBreak eol) :
    Broken isBreak (linesFrom last indent content gs) := by
  induction gs generalizing indent content with
  | nil => exact trivial
  | cons g gs ih =>
    have hrest : ∀ eol next, Glyph.newline eol next ∈ gs → isBreak eol := fun eol next h =>
      hgs eol next (List.mem_cons_of_mem _ h)
    cases g with
    | unit u => exact ih hrest
    | newline eol next =>
      rw [linesFrom_cons_newline]
      have hlines := @ih next [] hrest
      cases hcase : linesFrom last next [] gs with
      | nil => exact trivial
      | cons l lines =>
        rw [hcase] at hlines
        exact ⟨hgs eol next List.mem_cons_self, hlines⟩

/-- The breaks among the units of broken lines are breaks. -/
theorem Broken.newline {isBreak : List α → Prop} {eol next : List α} {lines : List (Line α)}
    (hlines : Broken isBreak lines) (h : Glyph.newline eol next ∈ units lines) : isBreak eol := by
  have hcontent : ∀ l : Line α, Glyph.newline eol next ∉ l.content.map Glyph.unit := fun l h => by
    obtain ⟨u, -, hu⟩ := List.mem_map.1 h
    cases hu
  induction lines with
  | nil => cases h
  | cons l lines ih =>
    cases lines with
    | nil => exact absurd h (hcontent l)
    | cons l' lines =>
      rw [units_cons_cons, List.mem_append, List.mem_cons] at h
      rcases h with h | h | h
      · exact absurd h (hcontent l)
      · cases h
        exact hlines.1
      · exact ih hlines.2 h

/-- A unit among the units is of the content of a line. -/
theorem unit_mem_units {u : α} {lines : List (Line α)} (h : Glyph.unit u ∈ units lines) :
    ∃ l ∈ lines, u ∈ l.content := by
  induction lines with
  | nil => cases h
  | cons l lines ih =>
    have hcontent : Glyph.unit u ∈ l.content.map Glyph.unit → u ∈ l.content := fun h => by
      obtain ⟨v, hv, heq⟩ := List.mem_map.1 h
      cases heq
      exact hv
    cases lines with
    | nil => exact ⟨l, List.mem_cons_self, hcontent h⟩
    | cons l' lines =>
      rw [units_cons_cons, List.mem_append, List.mem_cons] at h
      rcases h with h | h | h
      · exact ⟨l, List.mem_cons_self, hcontent h⟩
      · cases h
      · obtain ⟨a, ha, hu⟩ := ih h
        exact ⟨a, List.mem_cons_of_mem _ ha, hu⟩

end

/-! ## Replacing a stretch -/

section

variable (br : α) {lines : List (Line α)} (hne : lines ≠ [])

include hne

theorem length_units : (units lines).length = (shown br lines).length := by
  obtain ⟨l, lines, rfl⟩ := List.exists_cons_of_ne_nil hne
  rw [shown_units, List.length_map]

/-- The source up to a unit of the text, and from it on. -/
theorem spell_split {k : Nat} (hk : k ≤ (shown br lines).length) :
    ((lines.head?.map Line.indent).getD [] ++ ((units lines).take k).flatMap Glyph.spelled =
        (spell lines).take (offset lines k)) ∧
      ((units lines).drop k).flatMap Glyph.spelled ++ lastEol lines =
        (spell lines).drop (offset lines k) := by
  rw [← length_units br hne] at hk
  obtain ⟨l, lines, rfl⟩ := List.exists_cons_of_ne_nil hne
  have hspell : spell (l :: lines) =
      (l.indent ++ ((units (l :: lines)).take k).flatMap Glyph.spelled) ++
        (((units (l :: lines)).drop k).flatMap Glyph.spelled ++ lastEol (l :: lines)) := by
    rw [spell_units]
    conv_lhs => rw [← List.take_append_drop k (units (l :: lines)), List.flatMap_append]
    simp only [List.append_assoc]
  have hlength : offset (l :: lines) k =
      (l.indent ++ ((units (l :: lines)).take k).flatMap Glyph.spelled).length := by
    rw [offset_units hk, List.length_append]
  rw [hspell, hlength, List.take_left, List.drop_left]
  exact ⟨rfl, rfl⟩

theorem offset_eq {k : Nat} (hk : k ≤ (shown br lines).length) : offset lines k =
    ((lines.head?.map Line.indent).getD []).length +
      (((units lines).take k).flatMap Glyph.spelled).length := by
  rw [← length_units br hne] at hk
  obtain ⟨l, lines, rfl⟩ := List.exists_cons_of_ne_nil hne
  exact offset_units hk

/-- No place is past what is spelled. -/
theorem offset_le_length {k : Nat} (hk : k ≤ (shown br lines).length) :
    offset lines k ≤ (spell lines).length := by
  rw [offset_eq br hne hk]
  have hlength := congrArg List.length (spell_split br hne hk).1
  rw [List.length_append, List.length_take] at hlength
  omega

end

section

variable [DecidableEq α] (br : α) (eol indent : List α)

/-- The units of a text, each break of which is spelled the same way. -/
def typed (text : List α) : List (Glyph α) :=
  text.map fun u => if u = br then Glyph.newline eol indent else Glyph.unit u

/-- How a source spells a text. -/
def expand (text : List α) : List α := text.flatMap fun u => if u = br then eol ++ indent else [u]

/-- Lines of which the text has a stretch replaced. -/
def splice (lines : List (Line α)) (start stop : Nat) (text : List α) : List (Line α) :=
  linesFrom (lastEol lines) ((lines.head?.map Line.indent).getD []) []
    ((units lines).take start ++ typed br eol indent text ++ (units lines).drop stop)

@[simp] theorem length_typed (text : List α) : (typed br eol indent text).length = text.length :=
  List.length_map _

theorem typed_take (text : List α) (k : Nat) :
    (typed br eol indent text).take k = typed br eol indent (text.take k) := List.map_take.symm

/-- Typed text shows itself. -/
theorem shown_typed (text : List α) : (typed br eol indent text).map (Glyph.shown br) = text := by
  rw [typed, List.map_map]
  conv_rhs => rw [← List.map_id text]
  refine List.map_congr_left fun u _ => ?_
  rw [Function.comp_apply]
  split
  · next h => exact h.symm
  · rfl

/-- Typed text spells itself, each break with the indent behind it. -/
theorem spelled_typed (text : List α) :
    (typed br eol indent text).flatMap Glyph.spelled = expand br eol indent text := by
  rw [typed, List.flatMap_map, expand]
  refine List.flatMap_congr fun u _ => ?_
  split <;> rfl

variable {br eol indent} {lines : List (Line α)} {start stop : Nat} {text : List α}
  (hne : lines ≠ []) (hle : start ≤ stop) (hstop : stop ≤ (shown br lines).length)

include hne in
/-- A splice shows the text between what was shown before it and behind it. -/
theorem shown_splice : shown br (splice br eol indent lines start stop text) =
    (shown br lines).take start ++ text ++ (shown br lines).drop stop := by
  obtain ⟨l, lines, rfl⟩ := List.exists_cons_of_ne_nil hne
  rw [splice, shown_linesFrom, List.nil_append, List.map_append, List.map_append, shown_typed,
    List.map_take, List.map_drop, ← shown_units]

include hne hle hstop in
/-- The source that the lines are in has the spelling of the text in place of the stretch's. -/
theorem spell_splice : spell (splice br eol indent lines start stop text) =
    (spell lines).take (offset lines start) ++ expand br eol indent text ++
      (spell lines).drop (offset lines stop) := by
  rw [splice, spell_linesFrom, List.append_nil, List.flatMap_append, List.flatMap_append,
    spelled_typed, ← (spell_split br hne (Nat.le_trans hle hstop)).1, ← (spell_split br hne hstop).2]
  simp only [List.append_assoc]

include hne hle hstop in
/-- A place after a splice is behind what the units before it spell. -/
theorem offset_splice {k : Nat} (hk : k ≤ start + text.length + ((shown br lines).length - stop)) :
    offset (splice br eol indent lines start stop text) k =
      ((lines.head?.map Line.indent).getD []).length +
        ((((units lines).take start ++ typed br eol indent text ++ (units lines).drop stop).take
          k).flatMap Glyph.spelled).length := by
  have h := @offset_linesFrom _ (lastEol lines) ((lines.head?.map Line.indent).getD []) []
    ((units lines).take start ++ typed br eol indent text ++ (units lines).drop stop) k (by
      rw [List.length_append, List.length_append, List.length_take, List.length_drop, length_typed,
        length_units br hne]
      omega)
  rw [List.length_nil, Nat.zero_add, Nat.add_zero] at h
  exact h

include hne hle hstop in
/-- Before the stretch a unit is where it was. -/
theorem offset_splice_before {k : Nat} (hk : k ≤ start) :
    offset (splice br eol indent lines start stop text) k = offset lines k := by
  have hlength := length_units br hne
  rw [offset_splice hne hle hstop (by omega), offset_eq br hne (by omega), List.append_assoc,
    List.take_append_of_le_length (by rw [List.length_take]; omega), List.take_take,
    Nat.min_eq_left hk]

include hne hle hstop in
/-- In the text put there a unit is behind the spelling of what is before it. -/
theorem offset_splice_within {k : Nat} (hk : k ≤ text.length) :
    offset (splice br eol indent lines start stop text) (start + k) =
      offset lines start + (expand br eol indent (text.take k)).length := by
  have hlength := length_units br hne
  have hstart : ((units lines).take start).length = start := by
    rw [List.length_take]
    omega
  rw [offset_splice hne hle hstop (by omega), offset_eq br hne (by omega), List.append_assoc,
    List.take_append, List.take_take, hstart, Nat.min_eq_right (by omega), Nat.add_sub_cancel_left,
    List.take_append_of_le_length (by rw [length_typed]; omega), typed_take, List.flatMap_append,
    spelled_typed, List.length_append]
  omega

include hne hle hstop in
/-- Behind the stretch a unit is moved by what the source has more than before. -/
theorem offset_splice_after {k : Nat} (hk : k ≤ (shown br lines).length - stop) :
    offset (splice br eol indent lines start stop text) (start + text.length + k) +
        offset lines stop =
      offset lines (stop + k) + offset lines start + (expand br eol indent text).length := by
  have hlength := length_units br hne
  have hhead : ((units lines).take start ++ typed br eol indent text).length =
      start + text.length := by
    rw [List.length_append, List.length_take, length_typed]
    omega
  have hmoved : (units lines).take (stop + k) =
      (units lines).take stop ++ ((units lines).drop stop).take k := List.take_add
  rw [offset_splice hne hle hstop (by omega), offset_eq br hne (by omega),
    offset_eq br hne (show stop + k ≤ _ by omega),
    offset_eq br hne (show start ≤ _ by omega), ← hhead, List.take_length_add_append, hmoved,
    List.flatMap_append, List.flatMap_append, List.flatMap_append, spelled_typed]
  simp only [List.length_append]
  omega

include hne in
/-- An indent or an ending of a line is one of those there were, or that of the breaks. -/
theorem mem_splice {l : Line α} (hl : l ∈ splice br eol indent lines start stop text) :
    (l.indent = indent ∨ ∃ l' ∈ lines, l'.indent = l.indent) ∧
      (l.eol = eol ∨ ∃ l' ∈ lines, l'.eol = l.eol) := by
  have hfrom : ∀ e next, Glyph.newline e next ∈
      (units lines).take start ++ typed br eol indent text ++ (units lines).drop stop →
        (next = indent ∨ ∃ l' ∈ lines, l'.indent = next) ∧ (e = eol ∨ ∃ l' ∈ lines, l'.eol = e) := by
    intro e next h
    have hold : Glyph.newline e next ∈ units lines →
        (next = indent ∨ ∃ l' ∈ lines, l'.indent = next) ∧
          (e = eol ∨ ∃ l' ∈ lines, l'.eol = e) := fun h =>
      ⟨Or.inr (newline_mem_units h).2, Or.inr (newline_mem_units h).1⟩
    rcases List.mem_append.1 h with h | h
    · rcases List.mem_append.1 h with h | h
      · exact hold (List.mem_of_mem_take h)
      · obtain ⟨u, -, hu⟩ := List.mem_map.1 h
        split at hu
        · cases hu
          exact ⟨Or.inl rfl, Or.inl rfl⟩
        · cases hu
    · exact hold (List.mem_of_mem_drop h)
  obtain ⟨hindent, heol⟩ := mem_linesFrom hl
  refine ⟨?_, ?_⟩
  · rcases hindent with hindent | ⟨e, h⟩
    · obtain ⟨l', lines, rfl⟩ := List.exists_cons_of_ne_nil hne
      exact Or.inr ⟨l', List.mem_cons_self, hindent.symm⟩
    · exact (hfrom e _ h).1
  · rcases heol with heol | ⟨next, h⟩
    · obtain ⟨last, hlast⟩ := Option.isSome_iff_exists.1 (List.getLast?_isSome.2 hne)
      rw [lastEol, hlast] at heol
      exact Or.inr ⟨last, List.mem_of_getLast? hlast, heol.symm⟩
    · exact (hfrom _ next h).2

/-- Every line but the last ends in a break, where those of the text put there are spelled as one. -/
theorem broken_splice {isBreak : List α → Prop} (hlines : Broken isBreak lines) (heol : isBreak eol) :
    Broken isBreak (splice br eol indent lines start stop text) := by
  refine broken_linesFrom fun e next h => ?_
  rcases List.mem_append.1 h with h | h
  · rcases List.mem_append.1 h with h | h
    · exact hlines.newline (List.mem_of_mem_take h)
    · obtain ⟨u, -, hu⟩ := List.mem_map.1 h
      split at hu
      · cases hu
        exact heol
      · cases hu
  · exact hlines.newline (List.mem_of_mem_drop h)

/-- What no line had in its content and the text has not either, no line has. -/
theorem content_splice {p : α → Prop} (hlines : ∀ l ∈ lines, ∀ u ∈ l.content, p u)
    (htext : ∀ u ∈ text, u ≠ br → p u) :
    ∀ l ∈ splice br eol indent lines start stop text, ∀ u ∈ l.content, p u := by
  refine content_linesFrom (fun u hu => absurd hu List.not_mem_nil) fun u hu => ?_
  have hold : Glyph.unit u ∈ units lines → p u := fun h => by
    obtain ⟨l, hl, hul⟩ := unit_mem_units h
    exact hlines l hl u hul
  rcases List.mem_append.1 hu with hu | hu
  · rcases List.mem_append.1 hu with hu | hu
    · exact hold (List.mem_of_mem_take hu)
    · obtain ⟨v, hv, heq⟩ := List.mem_map.1 hu
      split at heq
      · cases heq
      · next hbr =>
        cases heq
        exact htext u hv hbr
  · exact hold (List.mem_of_mem_drop hu)

end

end Spelled

end Flark
