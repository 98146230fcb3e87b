import Flark.Kernel.History
import Flark.Lib.Scan

/-!
# Edits

Candidate edits as values: sorted splices of one source, none overlapping the next, that are
applied at once (`kernel/edits.dart`), and the offsets of a source in the other.

* `Edits.apply`, `Edits.forward`, `Edits.back`: the source they make, and an offset of one source
  in the other;
* `Edits.offsets_consistent`: what the offset maps have to do with the sources;
* `Edits.withInsertion_spec`: an insertion in the result, added to the edits;
* `Edits.between_spec`: the smallest edit that makes one source from another.
-/

namespace Flark

/-- `Edit`: the source from `start` to `stop` replaced with a text. -/
structure Edit where
  start : Int
  stop : Int
  text : Text
  deriving DecidableEq, Repr

/-- What an edit makes the source longer by. -/
def Edit.growth (e : Edit) : Int := e.text.length - (e.stop - e.start)

/-- What edits make the source longer by. -/
def growth (es : List Edit) : Int := (es.map Edit.growth).sum

/-- `isDisjoint`: the edits are sorted and none overlaps the next. -/
def isDisjoint : List Edit → Bool
  | e :: e' :: es => decide (e.stop ≤ e'.start) && isDisjoint (e' :: es)
  | _ => true

/-- `Edits`. -/
structure Edits where
  list : List Edit
  disjoint : isDisjoint list = true
  deriving DecidableEq

namespace Edits

/-! ## Applying edits, and offsets -/

/-- The loop of `apply`, from the offset up to which the source is copied. -/
def applyFrom (source : Text) : (copied : Int) → List Edit → Text
  | copied, [] => source.substring copied source.length
  | copied, e :: es => source.substring copied e.start ++ e.text ++ applyFrom source e.stop es

def apply (edits : Edits) (source : Text) : Text := applyFrom source 0 edits.list

theorem applyFrom_nil (source : Text) (copied : Int) :
    applyFrom source copied [] = source.substring copied source.length := rfl

theorem applyFrom_cons (source : Text) (copied : Int) (e : Edit) (es : List Edit) :
    applyFrom source copied (e :: es) =
      source.substring copied e.start ++ e.text ++ applyFrom source e.stop es := rfl

/-- The loop of `forward`. -/
def forwardFrom (offset : Int) (caret : Bool) : (shift : Int) → List Edit → Int
  | shift, [] => offset + shift
  | shift, e :: es =>
    if (if caret then offset < e.start else offset ≤ e.start) then offset + shift
    else if offset < e.stop then if caret then e.start + shift else -1
    else forwardFrom offset caret (shift + e.growth) es

theorem forwardFrom_nil (offset : Int) (caret : Bool) (shift : Int) :
    forwardFrom offset caret shift [] = offset + shift := rfl

/-- `forward`: where an offset of the source lies in the one the edits make, or -1. -/
def forward (edits : Edits) (offset : Int) (caret : Bool) : Int :=
  forwardFrom offset caret 0 edits.list

/-- The loop of `back`. -/
def backFrom (offset : Int) : (shift : Int) → List Edit → Int
  | shift, [] => offset - shift
  | shift, e :: es =>
    if offset < e.start + shift then offset - shift
    else if offset < e.start + shift + e.text.length then -1
    else backFrom offset (shift + e.growth) es

theorem backFrom_nil (offset shift : Int) : backFrom offset shift [] = offset - shift := rfl

theorem backFrom_cons (offset shift : Int) (e : Edit) (es : List Edit) :
    backFrom offset shift (e :: es) =
      if offset < e.start + shift then offset - shift
      else if offset < e.start + shift + e.text.length then -1
      else backFrom offset (shift + e.growth) es := rfl

/-- `back`: where an offset of the source the edits make lay, or -1 in text an edit put there. -/
def back (edits : Edits) (offset : Int) : Int := backFrom offset 0 edits.list

/-- The loop of `withInsertion`, up to where the text is placed. -/
def insertFrom (at_ : Int) (text : Text) : (shift : Int) → List Edit → List Edit
  | shift, [] => [⟨at_ - shift, at_ - shift, text⟩]
  | shift, e :: es =>
    if at_ ≤ e.start + shift + e.text.length then
      if at_ < e.start + shift then ⟨at_ - shift, at_ - shift, text⟩ :: e :: es
      else
        let within := (at_ - e.start - shift).toNat
        { e with text := e.text.replaceRange within within text } :: es
    else e :: insertFrom at_ text (shift + e.growth) es

/-- The text is placed behind what ends before it, and the list stays sorted. -/
theorem disjoint_insertFrom {at_ shift : Int} {text : Text} {es : List Edit}
    (hes : isDisjoint es = true) :
    isDisjoint (insertFrom at_ text shift es) = true ∧
      ∀ x, x + shift ≤ at_ → (∀ e ∈ es.head?, x ≤ e.start) →
        ∀ e ∈ (insertFrom at_ text shift es).head?, x ≤ e.start := by
  -- By induction on the edits, with what the first edit starts past generalised.
  induction es generalizing shift with
  | nil =>
    refine ⟨rfl, fun x hx _ e he => ?_⟩
    cases he
    dsimp only
    omega
  | cons e es ih =>
    rw [insertFrom]
    split_ifs with hreach hbefore
    · refine ⟨Bool.and_eq_true_iff.2 ⟨decide_eq_true ?_, hes⟩, fun x hx _ e' he' => ?_⟩
      · dsimp only
        omega
      · cases he'
        dsimp only
        omega
    · refine ⟨?_, fun x _ hfirst e' he' => ?_⟩
      · cases es with
        | nil => rfl
        | cons e' es => exact hes
      · cases he'
        exact hfirst e rfl
    · have htail : isDisjoint es = true ∧ ∀ e' ∈ es.head?, e.stop ≤ e'.start := by
        cases es with
        | nil => exact ⟨rfl, fun _ he' => absurd he' (Option.not_mem_none _)⟩
        | cons e' es =>
          obtain ⟨hle, hrest⟩ := Bool.and_eq_true_iff.1 hes
          refine ⟨hrest, fun e'' he'' => ?_⟩
          cases he''
          exact of_decide_eq_true hle
      obtain ⟨hdisjoint, hfrom⟩ := @ih (shift + e.growth) htail.1
      have hstop : e.stop + (shift + e.growth) ≤ at_ := by
        rw [Edit.growth]
        omega
      refine ⟨?_, fun x _ hfirst e' he' => ?_⟩
      · have hnext := hfrom e.stop hstop htail.2
        cases hlist : insertFrom at_ text (shift + e.growth) es with
        | nil => rfl
        | cons e' rest =>
          rw [hlist] at hnext hdisjoint
          exact Bool.and_eq_true_iff.2 ⟨decide_eq_true (hnext e' rfl), hdisjoint⟩
      · cases he'
        exact hfirst e rfl

/-- `withInsertion`: these edits with a text put at an offset of the source they make as well. -/
def withInsertion (edits : Edits) (at_ : Int) (text : Text) : Edits where
  list := insertFrom at_ text 0 edits.list
  disjoint := (disjoint_insertFrom edits.disjoint).1

/-- What two sources are long together. -/
def shorter (was now : Text) : Nat := if was.length < now.length then was.length else now.length

/-- The two have the same unit at an offset. -/
def sameAt (was now : Text) (i : Nat) : Bool := was.codeUnitAt i == now.codeUnitAt i

/-- The two have the same unit at an offset from the end. -/
def sameEnd (was now : Text) (i : Nat) : Bool :=
  was.codeUnitAt (was.length - 1 - i : Nat) == now.codeUnitAt (now.length - 1 - i : Nat)

/-- `between`: the one edit that makes `now` from `was`, where `from_` and `to_` say how far the two
    are known to agree; `to_` is an offset of `was`. -/
def between (was now : Text) (from_ : Nat) (to_ : Option Nat) : Edits :=
  let shorter := shorter was now
  let head := if from_ < shorter then from_ else shorter
  let head := Scan.upTo (sameAt was now) (shorter - head) head
  let tail := to_.elim 0 fun to_ => was.length - to_
  let tail := if shorter - head < tail then shorter - head else tail
  let tail := Scan.upTo (sameEnd was now) (shorter - head - tail) tail
  { list := [⟨head, (was.length - tail : Nat), now.substring head (now.length - tail : Nat)⟩]
    disjoint := rfl }

/-- `Spelling`: edits, and the selection and the intent of typing after them. -/
structure Spelling where
  edits : Edits
  selection : Selection
  pending : Option PendingStyle
  asAsked : Bool

/-- `Spelling.carrying`: the selection goes through the edits as carets do. -/
def carrying (edits : Edits) (selection : Selection) (pending : Option PendingStyle)
    (asAsked : Bool) : Spelling where
  edits := edits
  selection := ⟨edits.forward selection.base true, edits.forward selection.extent true, none⟩
  pending := pending
  asAsked := asAsked

/-- The edits are within a source of the length given. -/
def Within (es : List Edit) (n : Int) : Prop :=
  ∀ e ∈ es, 0 ≤ e.start ∧ e.start ≤ e.stop ∧ e.stop ≤ n

/-- The edits are sorted from an offset on, within a source of the length given. -/
def Fits (n : Int) : (c : Int) → List Edit → Prop
  | c, [] => c ≤ n
  | c, e :: es => c ≤ e.start ∧ e.start ≤ e.stop ∧ Fits n e.stop es

/-- Edits that fit leave a stretch behind the last. -/
theorem Fits.le {n c : Int} {es : List Edit} (h : Fits n c es) : c ≤ n := by
  induction es generalizing c with
  | nil => exact h
  | cons e es ih => exact (h.1.trans h.2.1).trans (ih h.2.2)

/-- Edits that fit start past what is copied. -/
theorem Fits.start_le {n c : Int} {es : List Edit} (h : Fits n c es) : ∀ e ∈ es, c ≤ e.start := by
  induction es generalizing c with
  | nil => exact fun _ he => absurd he List.not_mem_nil
  | cons e es ih =>
    have hstop : c ≤ e.stop := h.1.trans h.2.1
    exact List.forall_mem_cons.2 ⟨h.1, fun e' he' => hstop.trans (ih h.2.2 e' he')⟩

/-- Edits that are disjoint and within the source fit. -/
theorem fits_of_disjoint {n c : Int} {es : List Edit} (hes : isDisjoint es = true)
    (hwithin : Within es n) (hc : c ≤ n) (hfirst : ∀ e ∈ es.head?, c ≤ e.start) : Fits n c es := by
  induction es generalizing c with
  | nil => exact hc
  | cons e es ih =>
    obtain ⟨⟨-, hle, hstop⟩, hrest⟩ := List.forall_mem_cons.1 hwithin
    refine ⟨hfirst e rfl, hle, ih ?_ hrest hstop fun e' he' => ?_⟩
    · cases es with
      | nil => rfl
      | cons e' es => exact (Bool.and_eq_true_iff.1 hes).2
    · cases es with
      | nil => cases he'
      | cons e'' es =>
        cases he'
        exact of_decide_eq_true (Bool.and_eq_true_iff.1 hes).1

/-- Sorted edits within a source fit it. -/
theorem fits {edits : Edits} {n : Int} (hn : 0 ≤ n) (h : Within edits.list n) :
    Fits n 0 edits.list :=
  fits_of_disjoint edits.disjoint h hn fun e he => (h e (List.mem_of_mem_head? he)).1

/-- Edits that fit are disjoint. -/
theorem Fits.disjoint {n c : Int} {es : List Edit} (h : Fits n c es) : isDisjoint es = true := by
  induction es generalizing c with
  | nil => rfl
  | cons e es ih =>
    cases es with
    | nil => rfl
    | cons e' es => exact Bool.and_eq_true_iff.2 ⟨decide_eq_true h.2.2.1, ih h.2.2⟩

/-- Edits that fit are within the source. -/
theorem Fits.within {n c : Int} {es : List Edit} (h : Fits n c es) (hc : 0 ≤ c) : Within es n := by
  induction es generalizing c with
  | nil => exact fun _ he => absurd he List.not_mem_nil
  | cons e es ih =>
    have hstop : 0 ≤ e.stop := (hc.trans h.1).trans h.2.1
    exact List.forall_mem_cons.2 ⟨⟨hc.trans h.1, h.2.1, h.2.2.le⟩, ih h.2.2 hstop⟩

section

variable {source : Text} {c shift : Int} {es : List Edit}

@[simp] theorem growth_nil : growth [] = 0 := rfl

@[simp] theorem growth_cons (e : Edit) (es : List Edit) : growth (e :: es) = e.growth + growth es := by
  rw [growth, growth, List.map_cons, List.sum_cons]

/-- The result is longer by the growth of the edits. -/
theorem length_applyFrom (h : Fits source.length c es) (hc : 0 ≤ c) :
    ((applyFrom source c es).length : Int) = source.length - c + growth es := by
  induction es generalizing c with
  | nil =>
    have hle := h.le
    rw [applyFrom_nil, Text.length_substring hc le_rfl, growth_nil]
    omega
  | cons e es ih =>
    obtain ⟨hstart, hle, hrest⟩ := h
    have hstop := hrest.le
    rw [applyFrom_cons, List.length_append, List.length_append, Nat.cast_add, Nat.cast_add,
      ih hrest (by omega), Text.length_substring hc (by omega), growth_cons, Edit.growth]
    omega

/-- Edits that take back what others have made of a source shrink it by what those add. -/
theorem growth_undone {undone : List Edit} (h : Fits source.length 0 es)
    (h' : Fits (applyFrom source 0 es).length 0 undone)
    (hback : applyFrom (applyFrom source 0 es) 0 undone = source) :
    growth es + growth undone = 0 := by
  have hlength := length_applyFrom h (Int.le_refl 0)
  have hlength' := length_applyFrom h' (Int.le_refl 0)
  rw [hback] at hlength'
  omega

/-- Before the first edit the source is copied. -/
theorem getElem?_copied {e : Edit} (h : Fits source.length c (e :: es)) (hc : 0 ≤ c) {o : Int}
    (ho : c ≤ o) (ho' : o < e.start) :
    (applyFrom source c (e :: es))[(o - c).toNat]? = source[o.toNat]? := by
  have hstop := h.2.2.le
  have hle := h.2.1
  have hlength := Text.length_substring (t := source) hc (hle.trans hstop)
  rw [applyFrom_cons, List.append_assoc, List.getElem?_append_left (by omega), Text.substring,
    List.getElem?_take_of_lt (by omega), List.getElem?_drop]
  congr 1
  omega

/-- Behind the first edit comes what the rest of them make. -/
theorem getElem?_rest {e : Edit} (h : Fits source.length c (e :: es)) (hc : 0 ≤ c) (k : Nat) :
    (applyFrom source c (e :: es))[(e.start - c).toNat + e.text.length + k]? =
      (applyFrom source e.stop es)[k]? := by
  have hlength := Text.length_substring (t := source) hc (h.2.1.trans h.2.2.le)
  rw [applyFrom_cons, ← hlength, ← List.length_append,
    List.getElem?_append_right (Nat.le_add_right _ _), Nat.add_sub_cancel_left]

/-! ## Inserted text -/

/-- A position of the result is inside text that an edit put there: its place is where it starts,
    moved by what the edits before it add. -/
def Inserts (shift : Int) (es : List Edit) (p : Int) : Prop :=
  ∃ before e after, es = before ++ e :: after ∧ e.start + shift + growth before ≤ p ∧
    p < e.start + shift + growth before + e.text.length

theorem not_inserts_nil {p : Int} : ¬Inserts shift [] p := by
  rintro ⟨before, e, after, h, -⟩
  exact List.append_ne_nil_of_right_ne_nil before (List.cons_ne_nil e after) h.symm

/-- A place is of the first edit's text, or of another's. -/
theorem inserts_cons {e : Edit} {p : Int} : Inserts shift (e :: es) p ↔
    (e.start + shift ≤ p ∧ p < e.start + shift + e.text.length) ∨
      Inserts (shift + e.growth) es p := by
  constructor
  · rintro ⟨before, e', after, heq, hp⟩
    cases before with
    | nil =>
      cases heq
      rw [growth_nil] at hp
      exact Or.inl (by omega)
    | cons e'' before =>
      cases heq
      rw [growth_cons] at hp
      exact Or.inr ⟨before, e', after, rfl, by omega, by omega⟩
  · rintro (hp | ⟨before, e', after, rfl, hp⟩)
    · refine ⟨[], e, es, rfl, ?_⟩
      rw [growth_nil]
      omega
    · refine ⟨e :: before, e', after, rfl, ?_⟩
      rw [growth_cons]
      omega

/-- Inserted text is behind what is copied so far. -/
theorem Inserts.le {n p : Int} (h : Inserts shift es p) (hes : Fits n c es) : c + shift ≤ p := by
  induction es generalizing c shift with
  | nil => exact absurd h not_inserts_nil
  | cons e es ih =>
    obtain ⟨hstart, hle, hrest⟩ := hes
    rcases inserts_cons.1 h with h | h
    · omega
    · have := ih h hrest
      rw [Edit.growth] at this
      omega

/-! ## The offset maps -/

/-- A caret in a replaced range goes to where the replacement starts. -/
theorem forwardFrom_caret (o : Int) (e : Edit) :
    forwardFrom o true shift (e :: es) = if o < e.start then o + shift
      else if o < e.stop then e.start + shift else forwardFrom o true (shift + e.growth) es := by
  simp only [forwardFrom, if_true]

/-- A place in a replaced range is lost. -/
theorem forwardFrom_place (o : Int) (e : Edit) :
    forwardFrom o false shift (e :: es) = if o ≤ e.start then o + shift
      else if o < e.stop then -1 else forwardFrom o false (shift + e.growth) es := by
  simp only [forwardFrom, Bool.false_eq_true, if_false]

/-- A position of the result is inserted text and has no place in the source, or it has one: there
    the source has the same unit, and a caret goes from there to the position. -/
theorem backFrom_spec (h : Fits source.length c es) (hc : 0 ≤ c) {p : Int} (hp : c + shift ≤ p)
    (hp' : p ≤ c + shift + (applyFrom source c es).length) :
    backFrom p shift es = -1 ∧ Inserts shift es p ∨
      c ≤ backFrom p shift es ∧ ¬Inserts shift es p ∧
        (applyFrom source c es)[(p - (c + shift)).toNat]? = source[(backFrom p shift es).toNat]? ∧
        forwardFrom (backFrom p shift es) true shift es = p := by
  -- By induction on the edits: a position is in front of the first one, in its text or behind it,
  -- where the shift has its growth added.
  induction es generalizing c shift with
  | nil =>
    refine Or.inr ⟨?_, not_inserts_nil, ?_, ?_⟩
    · rw [backFrom_nil]
      omega
    · rw [applyFrom_nil, Text.length_substring hc le_rfl] at hp'
      rw [applyFrom_nil, backFrom_nil, Text.substring]
      have hle := h.le
      rcases (show p - (c + shift) ≤ source.length - c by omega).lt_or_eq with hlt | heq
      · rw [List.getElem?_take_of_lt (by omega), List.getElem?_drop]
        congr 1
        omega
      · -- The end of the one is the end of the other.
        rw [List.getElem?_eq_none, List.getElem?_eq_none (by omega)]
        rw [List.length_take]
        omega
    · rw [backFrom_nil, forwardFrom_nil]
      omega
  | cons e es ih =>
    have hrest := h.2.2
    have hlength := length_applyFrom h hc
    rw [growth_cons, Edit.growth] at hlength
    by_cases hbefore : p < e.start + shift
    · refine Or.inr ?_
      have hback : backFrom p shift (e :: es) = p - shift := by rw [backFrom_cons, if_pos hbefore]
      rw [hback]
      refine ⟨by omega, fun hin => ?_, ?_, ?_⟩
      · rcases inserts_cons.1 hin with hin | hin
        · omega
        · have := hin.le hrest
          rw [Edit.growth] at this
          omega
      · rw [show p - (c + shift) = p - shift - c by omega]
        exact getElem?_copied h hc (by omega) (by omega)
      · rw [forwardFrom_caret, if_pos (by omega)]
        omega
    by_cases hinside : p < e.start + shift + e.text.length
    · refine Or.inl ⟨?_, inserts_cons.2 (Or.inl ⟨by omega, hinside⟩)⟩
      rw [backFrom_cons, if_neg hbefore, if_pos hinside]
    · have hback : backFrom p shift (e :: es) = backFrom p (shift + e.growth) es := by
        rw [backFrom_cons, if_neg hbefore, if_neg hinside]
      have hgrowth : e.stop + (shift + e.growth) = e.start + shift + e.text.length := by
        rw [Edit.growth]
        omega
      have hcons : Inserts shift (e :: es) p ↔ Inserts (shift + e.growth) es p := by
        rw [inserts_cons, or_iff_right fun hin => hinside hin.2]
      have hle := h.2.1
      have hstart := h.1
      have hlength' := length_applyFrom hrest (by omega)
      rw [hback, hcons]
      rcases @ih e.stop (shift + e.growth) hrest (by omega) (by omega) (by omega) with
        hnone | ⟨hfrom, hnot, hunit, hforward⟩
      · exact Or.inl hnone
      · refine Or.inr ⟨by omega, hnot, ?_, ?_⟩
        · rw [← hunit, ← getElem?_rest h hc]
          congr 1
          omega
        · rw [forwardFrom_caret, if_neg (by omega), if_neg (by omega)]
          exact hforward

/-- An offset strictly inside a replaced range has no place in the result; any other is moved by
    what the edits that start before it add. -/
theorem forwardFrom_spec {n : Int} (h : Fits n c es) (hc : 0 ≤ c + shift) {o : Int} (ho : c ≤ o) :
    (∃ e ∈ es, e.start < o ∧ o < e.stop) ∧ forwardFrom o false shift es = -1 ∨
      (¬∃ e ∈ es, e.start < o ∧ o < e.stop) ∧ 0 ≤ forwardFrom o false shift es ∧
        forwardFrom o false shift es = o + shift + growth (es.filter fun e => e.start < o) := by
  -- By induction on the edits. The offset is before the first, inside of it, or past it, and then
  -- moved by what it adds.
  induction es generalizing c shift with
  | nil =>
    refine Or.inr ⟨by simp, ?_, ?_⟩
    · rw [forwardFrom_nil]
      omega
    · rw [forwardFrom_nil, List.filter_nil, growth_nil, add_zero]
  | cons e es ih =>
    obtain ⟨hstart, hle, hrest⟩ := h
    by_cases hbefore : o ≤ e.start
    · -- All edits start here or further on.
      have hsorted : ∀ e' ∈ e :: es, ¬e'.start < o := by
        refine List.forall_mem_cons.2 ⟨not_lt.2 hbefore, fun e' he' => not_lt.2 ?_⟩
        exact (hbefore.trans hle).trans (hrest.start_le e' he')
      refine Or.inr ⟨fun ⟨e', he', hlt, _⟩ => hsorted e' he' hlt, ?_, ?_⟩
      · rw [forwardFrom_place, if_pos hbefore]
        omega
      · rw [forwardFrom_place, if_pos hbefore,
          List.filter_eq_nil_iff.2 fun e' he' => mt of_decide_eq_true (hsorted e' he'), growth_nil,
          add_zero]
    by_cases hinside : o < e.stop
    · refine Or.inl ⟨⟨e, List.mem_cons_self, not_le.1 hbefore, hinside⟩, ?_⟩
      rw [forwardFrom_place, if_neg hbefore, if_pos hinside]
    · have hforward : forwardFrom o false shift (e :: es) =
          forwardFrom o false (shift + e.growth) es := by
        rw [forwardFrom_place, if_neg hbefore, if_neg hinside]
      have hexists : (∃ e' ∈ e :: es, e'.start < o ∧ o < e'.stop) ↔
          ∃ e' ∈ es, e'.start < o ∧ o < e'.stop := by
        rw [List.exists_mem_cons_iff, or_iff_right fun hin => hinside hin.2]
      have hgrowth : 0 ≤ e.stop + (shift + e.growth) := by
        rw [Edit.growth]
        omega
      have hfilter : (e :: es).filter (fun e => e.start < o) = e :: es.filter fun e => e.start < o :=
        List.filter_cons_of_pos (decide_eq_true (not_le.1 hbefore))
      rw [hforward, hexists, hfilter, growth_cons]
      rcases ih hrest hgrowth (not_lt.1 hinside) with hnone | ⟨hnot, hnonneg, heq⟩
      · exact Or.inl hnone
      · exact Or.inr ⟨hnot, hnonneg, by omega⟩

/-- A caret stays in what is made of the source from where it is. -/
theorem forwardFrom_mem (h : Fits source.length c es) (hc : 0 ≤ c) {o : Int} (ho : c ≤ o)
    (ho' : o ≤ source.length) : c + shift ≤ forwardFrom o true shift es ∧
      forwardFrom o true shift es ≤ c + shift + (applyFrom source c es).length := by
  have hlength := length_applyFrom h hc
  induction es generalizing c shift with
  | nil =>
    rw [growth_nil] at hlength
    rw [forwardFrom_nil]
    omega
  | cons e es ih =>
    obtain ⟨hstart, hle, hrest⟩ := h
    have hlength' := length_applyFrom hrest (by omega)
    have hstop := hrest.le
    rw [growth_cons, Edit.growth] at hlength
    rw [forwardFrom_caret]
    split_ifs with hbefore hinside
    · omega
    · omega
    · have := @ih e.stop (shift + e.growth) hrest (by omega) (not_lt.1 hinside) hlength'
      rw [Edit.growth] at this ⊢
      omega

/-- A caret further on stays further on. -/
theorem forwardFrom_mono (h : Fits source.length c es) (hc : 0 ≤ c) {o o' : Int} (ho : c ≤ o)
    (hle : o ≤ o') (ho' : o' ≤ source.length) :
    forwardFrom o true shift es ≤ forwardFrom o' true shift es := by
  induction es generalizing c shift with
  | nil =>
    rw [forwardFrom_nil, forwardFrom_nil]
    omega
  | cons e es ih =>
    have hrest := h.2.2
    have hstart := h.1
    have hstop := h.2.1
    rw [forwardFrom_caret, forwardFrom_caret]
    by_cases hinside : e.stop ≤ o'
    · have hmem := (@forwardFrom_mem source e.stop (shift + e.growth) es hrest (by omega) o' hinside
        ho').1
      rw [if_neg (show ¬o' < e.start by omega), if_neg (not_lt.2 hinside)]
      split_ifs with hbefore hlt
      · rw [Edit.growth] at hmem ⊢
        omega
      · rw [Edit.growth] at hmem ⊢
        omega
      · exact ih hrest (by omega) (not_lt.1 hlt)
    · rw [if_pos (show o' < e.stop by omega)]
      split_ifs <;> omega

/-! ## Consistent offsets -/

/-- The offset maps agree with the sources. A position of the result that has a place in the source
    holds what is there, and a caret goes from there to the position; it has none exactly in text
    that an edit put there. An offset has no place in the result exactly strictly inside a replaced
    range, and else is moved by the edits that start before it. Carets keep their order, and stay
    within the result. -/
theorem offsets_consistent (edits : Edits) (source : Text) (h : Within edits.list source.length) :
    (∀ p : Int, 0 ≤ p → p ≤ (edits.apply source).length →
      (0 ≤ edits.back p →
        (p < (edits.apply source).length →
          (edits.apply source)[p.toNat]? = source[(edits.back p).toNat]?) ∧
        edits.forward (edits.back p) true = p) ∧
      (edits.back p = -1 ↔ Inserts 0 edits.list p)) ∧
    (∀ o : Int, 0 ≤ o → o ≤ source.length →
      (edits.forward o false = -1 ↔ ∃ e ∈ edits.list, e.start < o ∧ o < e.stop) ∧
      ((¬∃ e ∈ edits.list, e.start < o ∧ o < e.stop) →
        edits.forward o false = o + growth (edits.list.filter fun e => e.start < o))) ∧
    (∀ o o' : Int, 0 ≤ o → o ≤ o' → o' ≤ source.length →
      0 ≤ edits.forward o true ∧ edits.forward o true ≤ edits.forward o' true ∧
        edits.forward o' true ≤ (edits.apply source).length) ∧
    ∀ (s : Selection) (pending : Option PendingStyle) (asAsked : Bool),
      0 ≤ s.base → s.base ≤ source.length → 0 ≤ s.extent → s.extent ≤ source.length →
        (s.base ≤ s.extent → (edits.carrying s pending asAsked).selection.base ≤
          (edits.carrying s pending asAsked).selection.extent) ∧
        (s.extent ≤ s.base → (edits.carrying s pending asAsked).selection.extent ≤
          (edits.carrying s pending asAsked).selection.base) := by
  have hfits := fits (Int.natCast_nonneg _) h
  refine ⟨fun p hp hp' => ?_, fun o ho _ => ?_, fun o o' ho hle ho' => ⟨?_, ?_, ?_⟩,
    fun s _ _ hbase hbase' hextent hextent' => ⟨fun hle => ?_, fun hle => ?_⟩⟩
  · have hspec := @backFrom_spec source 0 0 edits.list hfits le_rfl p (by omega) (by
      rw [apply] at hp'
      omega)
    rw [back, forward, apply]
    rcases hspec with ⟨hback, hin⟩ | ⟨hfrom, hnot, hunit, hforward⟩
    · rw [hback]
      exact ⟨fun hle => absurd hle (by decide), iff_of_true rfl hin⟩
    · rw [add_zero, sub_zero] at hunit
      refine ⟨fun _ => ⟨fun _ => hunit, hforward⟩, iff_of_false (fun heq => ?_) hnot⟩
      omega
  · rw [forward]
    rcases forwardFrom_spec hfits (by omega : (0 : Int) ≤ 0 + 0) ho with
      ⟨hin, hforward⟩ | ⟨hnot, hnonneg, hforward⟩
    · exact ⟨iff_of_true hforward hin, fun hnot => absurd hin hnot⟩
    · refine ⟨iff_of_false (fun heq => ?_) hnot, fun _ => by rw [hforward, add_zero]⟩
      omega
  · have hmem := (@forwardFrom_mem source 0 0 edits.list hfits le_rfl o ho (hle.trans ho')).1
    exact hmem
  · exact forwardFrom_mono hfits le_rfl ho hle ho'
  · have hmem := (@forwardFrom_mem source 0 0 edits.list hfits le_rfl o' (ho.trans hle) ho').2
    rw [zero_add, zero_add] at hmem
    exact hmem
  · exact forwardFrom_mono hfits le_rfl hbase hle hextent'
  · exact forwardFrom_mono hfits le_rfl hextent hle hbase'

/-- An insertion, a deletion at the same offset, and an insertion where that ends. -/
def touching : Edits where
  list := [⟨1, 1, Text.ofString "x"⟩, ⟨1, 3, []⟩, ⟨3, 3, Text.ofString "yz"⟩]
  disjoint := by decide

theorem within_touching : Within touching.list (Text.ofString "abcd").length := by
  intro e he
  simp only [touching, List.mem_cons, List.not_mem_nil, or_false] at he
  rcases he with rfl | rfl | rfl <;> decide

/-- The unit behind the three edits goes back and forth; the first of them has no place before, and
    what they replace none behind. -/
theorem offsets_consistent_touching : touching.forward (touching.back 4) true = 4 ∧
    touching.back 1 = -1 ∧ touching.forward 2 false = -1 := by
  obtain ⟨hback, hforward, -⟩ := offsets_consistent touching (Text.ofString "abcd") within_touching
  refine ⟨((hback 4 (by decide) (by decide)).1 (by decide)).2, ?_, ?_⟩
  · refine (hback 1 (by decide) (by decide)).2.2 ⟨[], _, _, rfl, ?_⟩
    decide
  · refine (hforward 2 (by decide) (by decide)).1.2 ⟨⟨1, 3, []⟩, ?_, by decide, by decide⟩
    exact List.mem_cons_of_mem _ List.mem_cons_self

/-! ## An insertion in the result -/

/-- A front of a stretch is replaced in the stretch. -/
theorem replaceRange_substring {a b : Int} (k : Nat) (hk : (k : Int) ≤ b - a) (ha : 0 ≤ a)
    (text : Text) : (source.substring a b).replaceRange k k text =
      source.substring a (a + k) ++ text ++ source.substring (a + k) b := by
  rw [Text.replaceRange, Text.take_substring source hk, Text.drop_substring source ha]

/-- The edits with the text placed stay sorted within the source, and make the source they made with
    the text in it. -/
theorem insertFrom_spec (h : Fits source.length c es) (hc : 0 ≤ c) {at_ : Int} {text : Text}
    {k : Nat} (hk : at_ = c + shift + k) (hk' : k ≤ (applyFrom source c es).length) :
    Fits source.length c (insertFrom at_ text shift es) ∧
      applyFrom source c (insertFrom at_ text shift es) =
        (applyFrom source c es).replaceRange k k text := by
  -- By induction on the edits: a text goes in front of the first that it does not reach past, into
  -- that one's text, or in among those behind it.
  induction es generalizing c shift k with
  | nil =>
    have hle := h.le
    rw [applyFrom_nil, Text.length_substring hc le_rfl] at hk'
    rw [insertFrom, show at_ - shift = c + k by omega]
    refine ⟨⟨Int.le_add_of_nonneg_right (Int.natCast_nonneg k), le_rfl, ?_⟩, ?_⟩
    · rw [Fits]
      dsimp only
      omega
    · rw [applyFrom_cons, applyFrom_nil, applyFrom_nil, replaceRange_substring k (by omega) hc]
  | cons e es ih =>
    obtain ⟨hstart, hle, hrest⟩ := h
    have hstop := hrest.le
    have hlength := Text.length_substring (t := source) hc (hle.trans hstop)
    rw [insertFrom, applyFrom_cons]
    split_ifs with hreach hbefore
    · -- In what is copied before the edit.
      rw [show at_ - shift = c + k by omega]
      refine ⟨⟨Int.le_add_of_nonneg_right (Int.natCast_nonneg k), le_rfl, ?_, hle, hrest⟩, ?_⟩
      · dsimp only
        omega
      rw [List.append_assoc, Text.replaceRange_append_left (by omega) (by omega),
        replaceRange_substring k (by omega) hc, applyFrom_cons, applyFrom_cons]
      simp only [List.append_assoc]
    · -- In the text of the edit, or at one of its ends.
      obtain ⟨w, rfl⟩ : ∃ w, k = (source.substring c e.start).length + w :=
        Nat.exists_eq_add_of_le (by omega)
      rw [show (at_ - e.start - shift).toNat = w by omega]
      refine ⟨⟨hstart, hle, hrest⟩, ?_⟩
      rw [applyFrom_cons, List.append_assoc, List.append_assoc, Text.replaceRange_append_right,
        Text.replaceRange_append_left (by omega) (by omega)]
    · have hgrowth : e.stop + (shift + e.growth) = e.start + shift + e.text.length := by
        rw [Edit.growth]
        omega
      have hahead : (source.substring c e.start ++ e.text).length =
          (source.substring c e.start).length + e.text.length := List.length_append
      obtain ⟨k, rfl⟩ : ∃ w, k = (source.substring c e.start ++ e.text).length + w :=
        Nat.exists_eq_add_of_le (by omega)
      rw [applyFrom_cons, hahead, List.length_append, hahead] at hk'
      have hplace : at_ = e.stop + (shift + e.growth) + k := by omega
      obtain ⟨hfits, happly⟩ := @ih e.stop (shift + e.growth) hrest (by omega) k hplace (by omega)
      refine ⟨⟨hstart, hle, hfits⟩, ?_⟩
      rw [applyFrom_cons, happly, Text.replaceRange_append_right]

/-- The edits with an insertion in their result are edits of the same source, sorted and none
    overlapping the next, and what they make is the result with the text inserted. -/
theorem withInsertion_spec (edits : Edits) (source text : Text) (p : Nat)
    (h : Within edits.list source.length) (hp : p ≤ (edits.apply source).length) :
    isDisjoint (edits.withInsertion p text).list = true ∧
      Within (edits.withInsertion p text).list source.length ∧
      (edits.withInsertion p text).apply source = (edits.apply source).replaceRange p p text := by
  have hfits := fits (Int.natCast_nonneg _) h
  obtain ⟨hfits', happly⟩ := @insertFrom_spec source 0 0 edits.list hfits le_rfl p text p
    (by omega) hp
  exact ⟨(edits.withInsertion p text).disjoint, hfits'.within le_rfl, happly⟩

/-- Between the two units of the last edit. -/
theorem withInsertion_spec_touching :
    (touching.withInsertion 3 (Text.ofString "-")).apply (Text.ofString "abcd") =
      Text.ofString "axy-zd" := by
  have h := (withInsertion_spec touching (Text.ofString "abcd") (Text.ofString "-") 3 within_touching
    (by decide)).2.2
  rw [show ((3 : Nat) : Int) = 3 from rfl] at h
  rw [h]
  decide

end

/-! ## The difference of two sources -/

section

variable {was now : Text} {from_ : Nat} {to_ : Option Nat}

/-- Where two sources first differ. -/
def headOf (was now : Text) : Nat := Scan.upTo (sameAt was now) (shorter was now) 0

/-- How much from the end on they agree, behind where they first differ. -/
def tailOf (was now : Text) : Nat :=
  Scan.upTo (sameEnd was now) (shorter was now - headOf was now) 0

/-- The shorter of two texts is within both. -/
theorem shorter_le : shorter was now ≤ was.length ∧ shorter was now ≤ now.length := by
  rw [shorter]
  split_ifs <;> omega

/-- Where the hints are right, the scans come to where they come from the ends. -/
theorem between_list (hfrom : ∀ i < from_, i < shorter was now → sameAt was now i = true)
    (hto : ∀ stop ∈ to_, ∀ i < was.length - stop, i < shorter was now → sameEnd was now i = true) :
    (between was now from_ to_).list = [⟨headOf was now, (was.length - tailOf was now : Nat),
      now.substring (headOf was now) (now.length - tailOf was now : Nat)⟩] := by
  have hhead : ∀ h, (h = if from_ < shorter was now then from_ else shorter was now) →
      Scan.upTo (sameAt was now) (shorter was now - h) h = headOf was now := by
    intro h hh
    have hle : h ≤ shorter was now := by
      split_ifs at hh <;> omega
    rw [headOf, ← Scan.upTo_eq_of_holds (Nat.zero_le h) (by omega) fun k _ hk => hfrom k ?_ ?_,
      Nat.zero_add]
    · split_ifs at hh <;> omega
    · omega
  have htail : ∀ t t', t' = (to_.elim 0 fun stop => was.length - stop) →
      (t = if shorter was now - headOf was now < t' then shorter was now - headOf was now else t') →
      Scan.upTo (sameEnd was now) (shorter was now - headOf was now - t) t = tailOf was now := by
    intro t t' ht' ht
    have hle : t ≤ shorter was now - headOf was now := by
      split_ifs at ht <;> omega
    rw [tailOf, ← Scan.upTo_eq_of_holds (Nat.zero_le t) (by omega) fun k _ hk => ?_, Nat.zero_add]
    have hk' : k < t' := by
      split_ifs at ht <;> omega
    cases to_ with
    | none => exact absurd hk' (by rw [ht', Option.elim_none]; exact Nat.not_lt_zero k)
    | some stop =>
      rw [ht', Option.elim_some] at hk'
      exact hto stop rfl k hk' (by omega)
  simp only [between, hhead _ rfl, htail _ _ rfl rfl]

/-- Two texts have the same unit at a place from the front. -/
theorem sameAt_iff {i : Nat} (hi : i < was.length) (hi' : i < now.length) :
    sameAt was now i = true ↔ was[i]? = now[i]? := by
  rw [sameAt, beq_iff_eq, Text.codeUnitAt, Text.codeUnitAt, Int.toNat_natCast,
    List.getD_eq_getElem _ _ hi, List.getD_eq_getElem _ _ hi', List.getElem?_eq_getElem hi,
    List.getElem?_eq_getElem hi', Option.some_inj]

/-- Sources that agree up to an offset start alike. -/
theorem take_eq_take {n : Nat} (hn : n ≤ shorter was now)
    (h : ∀ i < n, sameAt was now i = true) : was.take n = now.take n := by
  have hshorter := @shorter_le was now
  refine List.ext_getElem? fun i => ?_
  by_cases hi : i < n
  · rw [List.getElem?_take_of_lt hi, List.getElem?_take_of_lt hi,
      (sameAt_iff (by omega) (by omega)).1 (h i hi)]
  · rw [List.getElem?_take_eq_none (by omega), List.getElem?_take_eq_none (by omega)]

/-- Two texts have the same unit at a place from the back. -/
theorem sameEnd_iff {i : Nat} (hi : i < was.length) (hi' : i < now.length) :
    sameEnd was now i = true ↔ was[was.length - 1 - i]? = now[now.length - 1 - i]? := by
  rw [sameEnd, beq_iff_eq, Text.codeUnitAt, Text.codeUnitAt, Int.toNat_natCast, Int.toNat_natCast,
    List.getD_eq_getElem _ _ (by omega), List.getD_eq_getElem _ _ (by omega),
    List.getElem?_eq_getElem (by omega), List.getElem?_eq_getElem (by omega), Option.some_inj]

/-- Sources that agree from an offset from the end on end alike. -/
theorem drop_eq_drop {n : Nat} (hn : n ≤ shorter was now)
    (h : ∀ i < n, sameEnd was now i = true) :
    was.drop (was.length - n) = now.drop (now.length - n) := by
  have hshorter := @shorter_le was now
  refine List.ext_getElem? fun i => ?_
  by_cases hi : i < n
  · have hsame := (sameEnd_iff (by omega) (by omega)).1 (h (n - 1 - i) (by omega))
    rw [List.getElem?_drop, List.getElem?_drop]
    rwa [show was.length - 1 - (n - 1 - i) = was.length - n + i by omega,
      show now.length - 1 - (n - 1 - i) = now.length - n + i by omega] at hsame
  · rw [List.getElem?_eq_none (by rw [List.length_drop]; omega),
      List.getElem?_eq_none (by rw [List.length_drop]; omega)]

/-- The common front is within the shorter text. -/
theorem headOf_le : headOf was now ≤ shorter was now := by
  have := Scan.upTo_le (sameAt was now) (shorter was now) 0
  rwa [Nat.zero_add] at this

/-- The common back is within what the common front leaves. -/
theorem tailOf_le : tailOf was now ≤ shorter was now - headOf was now := by
  have := Scan.upTo_le (sameEnd was now) (shorter was now - headOf was now) 0
  rwa [Nat.zero_add] at this

/-- What lies between what two sources have in common at their ends makes one of the other. -/
theorem replaceRange_eq {a b : Nat} (hab : a + b ≤ shorter was now)
    (hstart : ∀ i < a, sameAt was now i = true) (hend : ∀ i < b, sameEnd was now i = true) :
    was.replaceRange a (was.length - b) (now.substring a (now.length - b : Nat)) = now := by
  have hshorter := @shorter_le was now
  rw [Text.replaceRange, take_eq_take (by omega) hstart, drop_eq_drop (by omega) hend,
    Text.substring, Int.toNat_natCast, List.append_assoc,
    show ((now.length - b : Nat) - (a : Int)).toNat = now.length - b - a by omega]
  conv_rhs => rw [← List.take_append_drop a now,
    ← List.take_append_drop (now.length - b - a) (now.drop a), List.drop_drop]
  rw [Nat.add_sub_cancel' (by omega)]

/-- The two sources agree before where they first differ, and behind where they last do. -/
theorem apply_difference : was.take (headOf was now) ++
    now.substring (headOf was now) (now.length - tailOf was now : Nat) ++
      was.drop (was.length - tailOf was now) = now := by
  have hhead := @headOf_le was now
  have htail := @tailOf_le was now
  exact replaceRange_eq (by omega) (fun i hi => Scan.holds (Nat.zero_le i) hi)
    fun i hi => Scan.holds (Nat.zero_le i) hi

/-- A text in place of less from where the two first differ does not make one of the other. -/
theorem ne_of_shorter {stop : Nat} (hhead : headOf was now ≤ stop)
    (hstop : stop < was.length - tailOf was now) (text : Text) :
    was.take (headOf was now) ++ text ++ was.drop stop ≠ now := by
  intro heq
  have hshorter := @shorter_le was now
  have hlength := congrArg List.length heq
  rw [List.length_append, List.length_append, List.length_take, List.length_drop] at hlength
  have hle := @headOf_le was now
  -- The two end alike from `stop` on, so the scan would have gone on.
  have hn : was.length - stop ≤ shorter was now := by
    rw [shorter] at hle ⊢
    split_ifs at hle ⊢ <;> omega
  have hdrop : was.drop stop = now.drop (now.length - (was.length - stop)) := by
    have hsuffix := List.suffix_iff_eq_drop.1 (⟨_, heq⟩ : was.drop stop <:+ now)
    rwa [List.length_drop] at hsuffix
  have hfails : sameEnd was now (tailOf was now) = false := by
    refine Scan.fails ?_
    rw [Nat.zero_add]
    refine (show tailOf was now < was.length - stop by omega).trans_le ?_
    rw [shorter] at hle ⊢
    split_ifs at hle ⊢ <;> omega
  refine absurd ((sameEnd_iff (by omega) (by omega)).2 ?_) (Bool.eq_false_iff.1 hfails)
  have hunit := congrArg (·[was.length - 1 - tailOf was now - stop]?) hdrop
  rw [List.getElem?_drop, List.getElem?_drop] at hunit
  rwa [show stop + (was.length - 1 - tailOf was now - stop) = was.length - 1 - tailOf was now by
    omega, show now.length - (was.length - stop) + (was.length - 1 - tailOf was now - stop) =
      now.length - 1 - tailOf was now by omega] at hunit

/-- One edit puts its text in place of its range. -/
theorem applyFrom_singleton (source : Text) (e : Edit) : applyFrom source 0 [e] =
    source.take e.start.toNat ++ e.text ++ source.drop e.stop.toNat := by
  rw [applyFrom_cons, applyFrom_nil, Text.substring, Text.substring, Int.toNat_zero, List.drop_zero, sub_zero,
    List.take_of_length_le (l := source.drop e.stop.toNat)]
  rw [List.length_drop]
  omega

/-- Where the two sources agree as the hints say, the difference is one edit within the first that
    makes the second of it, the same as without hints, and no text in place of less from the same
    offset on makes the second. -/
theorem between_spec (was now : Text) (from_ : Nat) (to_ : Option Nat)
    (hfrom : ∀ i < from_, i < was.length → i < now.length → was[i]? = now[i]?)
    (hto : ∀ stop ∈ to_, ∀ i < was.length - stop, i < was.length → i < now.length →
      was[was.length - 1 - i]? = now[now.length - 1 - i]?) :
    ∃ e, (between was now from_ to_).list = [e] ∧ Within [e] was.length ∧
      (between was now from_ to_).apply was = now ∧
      between was now from_ to_ = between was now 0 none ∧
      ∀ other : Edit, other.start = e.start → other.start ≤ other.stop → other.stop < e.stop →
        applyFrom was 0 [other] ≠ now := by
  have hshorter := @shorter_le was now
  have hhead := @headOf_le was now
  have htail := @tailOf_le was now
  have hlist := @between_list was now from_ to_
    (fun i hi hi' => (sameAt_iff (by omega) (by omega)).2 (hfrom i hi (by omega) (by omega)))
    fun stop hstop i hi hi' =>
      (sameEnd_iff (by omega) (by omega)).2 (hto stop hstop i hi (by omega) (by omega))
  have hplain := @between_list was now 0 none (fun i hi => absurd hi (Nat.not_lt_zero i))
    fun stop hstop => absurd hstop (Option.not_mem_none stop)
  refine ⟨_, hlist, ?_, ?_, ?_, fun other hstart hle hstop => ?_⟩
  · refine List.forall_mem_singleton.2 ⟨Int.natCast_nonneg _, ?_, ?_⟩
    · dsimp only
      omega
    · dsimp only
      omega
  · rw [apply, hlist, applyFrom_singleton]
    exact apply_difference
  · have hext : ∀ a b : Edits, a.list = b.list → a = b := by
      rintro ⟨a, _⟩ ⟨b, _⟩ rfl
      rfl
    exact hext _ _ (hlist.trans hplain.symm)
  · rw [applyFrom_singleton, hstart]
    dsimp only at hstart hstop ⊢
    exact ne_of_shorter (by omega) (by omega) other.text

/-- One more of a repeated unit, where each hint alone says all there is to know. -/
theorem between_spec_repeated :
    (between (Text.ofString "aa") (Text.ofString "aaa") 2 (some 0)).apply (Text.ofString "aa") =
      Text.ofString "aaa" := by
  obtain ⟨e, -, -, happly, -⟩ := between_spec (Text.ofString "aa") (Text.ofString "aaa") 2 (some 0)
    (by decide) (fun stop hstop => by
      obtain rfl := Option.some_inj.1 hstop
      decide)
  exact happly

end

end Edits

end Flark
