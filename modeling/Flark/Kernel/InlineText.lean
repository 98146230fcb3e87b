import Flark.Kernel.Shape
import Mathlib.Data.List.Pairwise

/-!
# What an inline row shows

An inline row shows every content character of its leaf once. What the walk over the records
writes is *faithful* (`Out.Faithful`): its segments cover the text, run forward in the source
without overlap, and show the source itself where they say so. Each piece of the walk takes a
faithful text that ends by one offset to one that ends by a later one, and leaves out only
what a delimiter hides (`Writes`); the pieces of a record compose to all of it.

* `Writes.trans`: pieces compose;
* `writes_record`: one record is written from its start to its stop;
* `inlineRow_showsOnce`: so the row of an inline leaf shows its content once.
-/

namespace Flark

/-! ## Text that is faithful to the source -/

/-- The segment stands for the source unit `u`. -/
def Segment.Covers (s : Segment) (u : Int) : Prop := s.sourceStart ≤ u ∧ u < s.sourceEnd

instance (s : Segment) (u : Int) : Decidable (s.Covers u) := inferInstanceAs (Decidable (_ ∧ _))

/-- An exact segment is as long in the source as in the text. -/
def Segment.Measured (s : Segment) : Prop :=
  s.exact = true → s.sourceEnd - s.sourceStart = (s.displayEnd : Int) - s.displayStart

namespace Out

/-- All that is written so far stands for source before `p`. -/
def EndsBy (out : Out) (p : Int) : Prop := ∀ s ∈ out.segments, s.sourceEnd ≤ p

/-- Some segment stands for the unit `u`. -/
def Paints (out : Out) (u : Int) : Prop := ∃ s ∈ out.segments, s.Covers u

/-- What a text and its segments keep to while they are written. -/
structure Faithful (src : Text) (out : Out) : Prop where
  tiles : out.Tiled
  forward : ∀ s ∈ out.segments, s.sourceStart ≤ s.sourceEnd
  ordered : out.segments.Pairwise fun s t => s.sourceEnd ≤ t.sourceStart
  /-- An exact segment shows the source as it is, -/
  exact : ∀ s ∈ out.segments, s.exact = true →
    out.text.substring s.displayStart s.displayEnd = src.substring s.sourceStart s.sourceEnd
  /-- unit for unit. -/
  measured : ∀ s ∈ out.segments, s.Measured

variable {src : Text} {out : Out} {p q a b : Int}

theorem faithful_nil : Faithful src ⟨[], []⟩ :=
  ⟨tiled_nil, nofun, List.Pairwise.nil, nofun, nofun⟩

theorem EndsBy.mono (h : out.EndsBy p) (hpq : p ≤ q) : out.EndsBy q :=
  fun s hs => (h s hs).trans hpq

/-- A piece that ends by a place leaves the text ending by it. -/
theorem endsBy_add {piece : Text} {styles : Nat} {exact : Bool} {run : Int} {lineBreak : Bool}
    (h : out.EndsBy p) (hb : b ≤ p) : (out.add piece a b styles exact run lineBreak).EndsBy p := by
  intro s hs
  rcases List.mem_append.1 hs with hs | hs
  · exact h s hs
  · cases List.mem_singleton.1 hs
    exact hb

/-- What exact segments show stays when more text is written. -/
theorem Faithful.exact_append (h : out.Faithful src) (piece : Text) {s : Segment}
    (hs : s ∈ out.segments) (hexact : s.exact = true) :
    (out.text ++ piece).substring s.displayStart s.displayEnd =
      src.substring s.sourceStart s.sourceEnd := by
  obtain ⟨-, -, hle⟩ := Tiles.bounds h.tiles hs
  rw [Text.substring_append (Int.natCast_nonneg _) (Int.ofNat_le.2 hle)]
  exact h.exact s hs hexact

/-- A piece behind all that is written; an exact one is a piece of the source. -/
theorem Faithful.add (h : out.Faithful src) (hends : out.EndsBy a) (hab : a ≤ b) {piece : Text}
    {exact : Bool}
    (hexact : exact = true → piece = src.substring a b ∧ (piece.length : Int) = b - a)
    (styles : Nat) (run : Int) (lineBreak : Bool) :
    (out.add piece a b styles exact run lineBreak).Faithful src where
  tiles := Tiled.add h.tiles _ _ _ _ _ _ _
  forward := by
    intro s hs
    rcases List.mem_append.1 hs with hs | hs
    · exact h.forward s hs
    · cases List.mem_singleton.1 hs
      exact hab
  ordered := by
    refine List.pairwise_append.2 ⟨h.ordered, List.pairwise_singleton _ _, fun s hs t ht => ?_⟩
    cases List.mem_singleton.1 ht
    exact hends s hs
  exact := by
    intro s hs hs'
    rcases List.mem_append.1 hs with hs | hs
    · exact h.exact_append piece hs hs'
    · cases List.mem_singleton.1 hs
      rw [← (hexact hs').1]
      exact Text.substring_append_drop out.text piece 0
  measured := by
    intro s hs
    rcases List.mem_append.1 hs with hs | hs
    · exact h.measured s hs
    · cases List.mem_singleton.1 hs
      intro hs'
      have := (hexact hs').2
      dsimp only
      omega

end Out

/-- What a piece of the walk from the source offset `a` to `b` makes of a text: it writes behind
    what is there, nothing behind `lim`, and leaves out only what is hidden. -/
structure Writes (src : Text) (hidden : Int → Prop) (lim : Int) (out out' : Out) (a b : Int) :
    Prop where
  faithful : out'.Faithful src
  endsBy : out'.EndsBy b
  limit : out.EndsBy lim → out'.EndsBy lim
  keeps : ∀ u, out.Paints u → out'.Paints u
  shows : ∀ u, a ≤ u → u < b → out'.Paints u ∨ hidden u

namespace Writes

variable {src : Text} {hidden : Int → Prop} {lim : Int} {out out' out'' : Out} {a b c : Int}

/-- What is written up to one place and then up to another is written up to the last. -/
theorem trans (h : Writes src hidden lim out out' a b) (h' : Writes src hidden lim out' out'' b c) :
    Writes src hidden lim out out'' a c where
  faithful := h'.faithful
  endsBy := h'.endsBy
  limit hl := h'.limit (h.limit hl)
  keeps u hu := h'.keeps u (h.keeps u hu)
  shows u ha hc := by
    by_cases hb : u < b
    · exact (h.shows u ha hb).imp_left (h'.keeps u)
    · exact h'.shows u (not_lt.1 hb) hc

/-- A hidden range is left out. -/
theorem skip (hf : out.Faithful src) (he : out.EndsBy a) (hab : a ≤ b)
    (h : ∀ u, a ≤ u → u < b → hidden u) : Writes src hidden lim out out a b where
  faithful := hf
  endsBy := he.mono hab
  limit hl := hl
  keeps _ hu := hu
  shows u ha hb := Or.inr (h u ha hb)

/-- Nothing is written where nothing is to be. -/
theorem nothing (hf : out.Faithful src) (he : out.EndsBy a) :
    Writes src hidden lim out out a a :=
  skip hf he le_rfl fun _ ha hb => absurd hb (not_lt.2 ha)

/-- A piece that is added is written, with what it shows hidden in no place. -/
theorem add (hf : out.Faithful src) (he : out.EndsBy a) (hab : a ≤ b) (hlim : b ≤ lim)
    {piece : Text} {exact : Bool}
    (hexact : exact = true → piece = src.substring a b ∧ (piece.length : Int) = b - a)
    (styles : Nat) (run : Int) (lineBreak : Bool) :
    Writes src hidden lim out (out.add piece a b styles exact run lineBreak) a b where
  faithful := hf.add he hab hexact styles run lineBreak
  endsBy := Out.endsBy_add (he.mono hab) le_rfl
  limit hl := Out.endsBy_add hl hlim
  keeps _ := fun ⟨s, hs, hu⟩ => ⟨s, List.mem_append_left _ hs, hu⟩
  shows _ ha hb := Or.inl ⟨_, List.mem_append_right _ (List.mem_singleton_self _), ha, hb⟩

end Writes

/-! ## Source as it is -/

/-- The segment that a piece joins ends where the piece begins. -/
theorem Out.joining_sourceEnd {out : Out} {a : Int} {previous : Segment}
    (h : out.joining a = some previous) : previous.sourceEnd = a := by
  rw [Out.joining] at h
  split at h
  · split at h
    · next hjoins =>
      cases h
      exact hjoins.2.2.2
    · cases h
  · cases h

section

variable {gs : Graphemes} {src : Text} {hidden : Int → Prop} {lim : Int} {out : Out} {a b : Int}

/-- A replacement that joins the first grapheme of the piece ends with it; the rest of the piece,
    if any, is a segment of its own. -/
theorem emitExact_joining {previous : Segment} (hjoin : out.joining a = some previous)
    (ha : 0 ≤ a) (hab : a < b) (hb : b ≤ src.length) (style : Nat) (run : Int) :
    ∃ (initial rest : List Segment) (fused : Segment), out.segments = initial ++ [previous] ∧
      (emitExact gs src out a b style run).text = out.text ++ src.substring a b ∧
      (emitExact gs src out a b style run).segments = initial ++ fused :: rest ∧
      fused.sourceStart = previous.sourceStart ∧ fused.exact = false ∧
      a ≤ fused.sourceEnd ∧ fused.sourceEnd ≤ b ∧
      (rest = [] ∧ fused.sourceEnd = b ∨ ∃ s : Segment, rest = [s] ∧
        s.sourceStart = fused.sourceEnd ∧ s.sourceEnd = b ∧
        (out.text ++ src.substring a b).substring s.displayStart s.displayEnd =
          src.substring s.sourceStart s.sourceEnd ∧ s.Measured) := by
  have hsplit := List.dropLast_append_getLast? previous (Out.joining_eq_some hjoin).1
  have hfirst := gs.firstLength_le (src.substring a b)
  have hlen := Text.length_substring ha hb
  simp only [emitExact, if_neg (not_le.2 hab), hjoin, List.append_assoc, List.singleton_append]
  refine ⟨_, _, _, hsplit.symm, True.intro, rfl, rfl, rfl, by dsimp only; omega,
    by dsimp only; omega, ?_⟩
  dsimp only
  by_cases hrest : a + (gs.firstLength (src.substring a b) : Int) < b
  · rw [if_pos hrest]
    refine Or.inr ⟨_, rfl, rfl, rfl, ?_⟩
    dsimp only
    refine ⟨?_, fun _ => ?_⟩
    · rw [List.length_append, Text.substring_append_drop, Text.drop_substring _ ha]
    · rw [List.length_append]
      dsimp only
      omega
  · rw [if_neg hrest]
    exact Or.inl ⟨rfl, by omega⟩

/-- Source that is shown as it is, is written: one segment of its own, joined to the last where that
    is empty. -/
theorem writes_emitExact (hf : out.Faithful src) (he : out.EndsBy a) (ha : 0 ≤ a) (hab : a ≤ b)
    (hb : b ≤ src.length) (hlim : b ≤ lim) (style : Nat) (run : Int) :
    Writes src hidden lim out (emitExact gs src out a b style run) a b := by
  rcases hab.eq_or_lt with rfl | hlt
  · rw [emitExact, if_pos le_rfl]
    exact Writes.nothing hf he
  cases hjoin : out.joining a with
  | none =>
    simp only [emitExact, if_neg (not_le.2 hlt), hjoin]
    refine Writes.add hf he hab hlim (fun _ => ⟨rfl, ?_⟩) style run false
    rw [Text.length_substring ha hb]
    omega
  | some previous =>
    have hends := Out.joining_sourceEnd hjoin
    obtain ⟨initial, rest, fused, hout, htext, hsegments, hstart, hexact, hle, hstop, hrest⟩ :=
      @emitExact_joining gs src out a b previous hjoin ha hlt hb style run
    -- Where the segments from the joined one on end, and that they leave no unit out.
    have hbound : ∀ s ∈ fused :: rest, s.sourceEnd ≤ b := by
      intro s hs
      rcases List.mem_cons.1 hs with rfl | hs
      · exact hstop
      · rcases hrest with ⟨rfl, -⟩ | ⟨t, rfl, -, ht, -⟩
        · cases hs
        · cases List.mem_singleton.1 hs
          exact ht.le
    have hcovers : ∀ u, fused.sourceStart ≤ u → u < b → ∃ s ∈ fused :: rest, s.Covers u := by
      intro u hu hub
      by_cases hfirst : u < fused.sourceEnd
      · exact ⟨fused, List.mem_cons_self, hu, hfirst⟩
      · rcases hrest with ⟨-, heq⟩ | ⟨t, rfl, ht, ht', -⟩
        · exact absurd (hub.trans_eq heq.symm) hfirst
        · exact ⟨t, by simp, by rw [ht]; exact not_lt.1 hfirst, by rw [ht']; exact hub⟩
    have hinitial : ∀ s ∈ initial, s ∈ out.segments := fun s hs =>
      hout ▸ List.mem_append_left _ hs
    have hforward := hf.forward previous (hout ▸ List.mem_append_right _ (by simp))
    have hpast : fused.sourceStart ≤ a := hstart.trans_le (hforward.trans_eq hends)
    have hendsBy : ∀ p, b ≤ p → out.EndsBy p → (emitExact gs src out a b style run).EndsBy p := by
      intro p hbp he s hs
      rw [hsegments] at hs
      rcases List.mem_append.1 hs with hs | hs
      · exact he s (hinitial s hs)
      · exact (hbound s hs).trans hbp
    refine ⟨⟨tiled_emitExact hf.tiles a b style run, ?_, ?_, ?_, ?_⟩, hendsBy b le_rfl (he.mono hab),
      hendsBy lim hlim, ?_, fun u hu hub => Or.inl ?_⟩
    · rw [hsegments]
      intro s hs
      rcases List.mem_append.1 hs with hs | hs
      · exact hf.forward s (hinitial s hs)
      · rcases List.mem_cons.1 hs with rfl | hs
        · exact hpast.trans hle
        · rcases hrest with ⟨rfl, -⟩ | ⟨t, rfl, ht, ht', -⟩
          · cases hs
          · cases List.mem_singleton.1 hs
            rw [ht, ht']
            exact hstop
    · have hordered := hf.ordered
      rw [hout, List.pairwise_append] at hordered
      obtain ⟨hordered, -, hbefore⟩ := hordered
      rw [hsegments]
      refine List.pairwise_append.2 ⟨hordered, ?_, fun s hs t ht => ?_⟩
      · rcases hrest with ⟨rfl, -⟩ | ⟨t, rfl, ht, -, -⟩
        · exact List.pairwise_singleton _ _
        · exact List.pairwise_pair.2 ht.ge
      · have hs' := hbefore s hs previous List.mem_cons_self
        rcases List.mem_cons.1 ht with rfl | ht
        · exact hs'.trans_eq hstart.symm
        · rcases hrest with ⟨rfl, -⟩ | ⟨r, rfl, hr, -, -⟩
          · cases ht
          · cases List.mem_singleton.1 ht
            rw [hr]
            exact hs'.trans (hstart.symm.le.trans (hpast.trans hle))
    · rw [hsegments, htext]
      intro s hs hs'
      rcases List.mem_append.1 hs with hs | hs
      · exact hf.exact_append _ (hinitial s hs) hs'
      · rcases List.mem_cons.1 hs with rfl | hs
        · exact absurd (hexact.symm.trans hs') (by decide)
        · rcases hrest with ⟨rfl, -⟩ | ⟨t, rfl, -, -, ht, -⟩
          · cases hs
          · cases List.mem_singleton.1 hs
            exact ht
    · rw [hsegments]
      intro s hs
      rcases List.mem_append.1 hs with hs | hs
      · exact hf.measured s (hinitial s hs)
      · rcases List.mem_cons.1 hs with rfl | hs
        · exact fun hs' => absurd (hexact.symm.trans hs') (by decide)
        · rcases hrest with ⟨rfl, -⟩ | ⟨t, rfl, -, -, -, ht⟩
          · cases hs
          · cases List.mem_singleton.1 hs
            exact ht
    · rintro u ⟨s, hs, hu⟩
      rw [hout] at hs
      rcases List.mem_append.1 hs with hs | hs
      · exact ⟨s, hsegments ▸ List.mem_append_left _ hs, hu⟩
      · -- What the joined segment stood for, the one in its place stands for.
        cases List.mem_singleton.1 hs
        obtain ⟨t, ht, htu⟩ := hcovers u (hstart.trans_le hu.1)
          ((hu.2.trans_eq hends).trans_le hab)
        exact ⟨t, hsegments ▸ List.mem_append_right _ ht, htu⟩
    · obtain ⟨t, ht, htu⟩ := hcovers u (hpast.trans hu) hub
      exact ⟨t, hsegments ▸ List.mem_append_right _ ht, htu⟩

end

/-! ## What delimiters hide -/

/-- The range has the unit `u`. -/
def InRange (h : Int × Int) (u : Int) : Prop := h.1 ≤ u ∧ u < h.2

/-- A delimiter of one of the runs hides the unit `u`. -/
def Hidden (runs : List RunView) (u : Int) : Prop :=
  ∃ r ∈ runs, ∃ h ∈ r.delimiters, InRange h u

/-- Ranges that are not empty and lie apart, one behind the other. -/
structure Apart (ranges : List (Int × Int)) : Prop where
  lt : ∀ h ∈ ranges, h.1 < h.2
  ordered : ranges.Pairwise fun h h' => h.2 < h'.1

theorem Apart.tail {h : Int × Int} {ranges : List (Int × Int)} (ha : Apart (h :: ranges)) :
    Apart ranges :=
  ⟨fun h' hh' => ha.lt h' (List.mem_cons_of_mem _ hh'), (List.pairwise_cons.1 ha.ordered).2⟩

/-- The ranges behind one that is apart from them start behind it. -/
theorem Apart.head_lt {h h' : Int × Int} {ranges : List (Int × Int)} (ha : Apart (h :: ranges))
    (hh' : h' ∈ ranges) : h.2 < h'.1 := (List.pairwise_cons.1 ha.ordered).1 h' hh'

/-- The delimiters of a run are not empty. -/
theorem RunView.lt_of_mem_delimiters {r : RunView} {h : Int × Int} (hh : h ∈ r.delimiters) :
    h.1 < h.2 := by
  rcases List.mem_append.1 hh with hh | hh
  all_goals
    split at hh
    · next hlt =>
      cases List.mem_singleton.1 hh
      exact hlt
    · cases hh

section

variable {last : Int × Int} {hidden : List (Int × Int)}

/-- Merging covers what the intervals cover, from the last one on. -/
theorem coverFrom_inRange (hsorted : (last :: hidden).Pairwise fun h h' => h.1 ≤ h'.1) (u : Int) :
    (∃ h ∈ coverFrom last hidden, InRange h u) ↔ ∃ h ∈ last :: hidden, InRange h u := by
  induction hidden generalizing last with
  | nil => exact Iff.rfl
  | cons h hidden ih =>
    obtain ⟨hlast, hsorted⟩ := List.pairwise_cons.1 hsorted
    have hstart := hlast h List.mem_cons_self
    rw [coverFrom]
    by_cases hle : h.1 ≤ last.2
    · have hmerged := @ih (last.1, max last.2 h.2) (List.pairwise_cons.2
        ⟨fun h' hh' => hlast h' (List.mem_cons_of_mem _ hh'), (List.pairwise_cons.1 hsorted).2⟩)
      rw [if_pos hle, hmerged]
      -- The two ranges touch, so their union is the range from one's start to the later end.
      simp only [List.exists_mem_cons_iff, InRange, lt_max_iff, ← or_assoc]
      refine or_congr_left ⟨fun hu => ?_, fun hu => ?_⟩ <;> omega
    · rw [if_neg hle]
      simp only [List.exists_mem_cons_iff] at ih ⊢
      rw [ih hsorted]

/-- Merging does not reach in front of the first interval. -/
theorem coverFrom_start_le (hsorted : (last :: hidden).Pairwise fun h h' => h.1 ≤ h'.1) :
    ∀ h ∈ coverFrom last hidden, last.1 ≤ h.1 := by
  induction hidden generalizing last with
  | nil => exact fun h hh => (List.mem_singleton.1 hh).symm ▸ le_rfl
  | cons h hidden ih =>
    obtain ⟨hlast, hsorted⟩ := List.pairwise_cons.1 hsorted
    rw [coverFrom]
    split
    · exact ih (List.pairwise_cons.2
        ⟨fun h' hh' => hlast h' (List.mem_cons_of_mem _ hh'), (List.pairwise_cons.1 hsorted).2⟩)
    · refine List.forall_mem_cons.2 ⟨le_rfl, fun h' hh' => ?_⟩
      exact (hlast h List.mem_cons_self).trans (ih hsorted h' hh')

/-- Merged intervals are apart. -/
theorem apart_coverFrom (hsorted : (last :: hidden).Pairwise fun h h' => h.1 ≤ h'.1)
    (hlt : ∀ h ∈ last :: hidden, h.1 < h.2) : Apart (coverFrom last hidden) := by
  induction hidden generalizing last with
  | nil => exact ⟨hlt, List.pairwise_singleton _ _⟩
  | cons h hidden ih =>
    obtain ⟨hlast, hsorted'⟩ := List.pairwise_cons.1 hsorted
    obtain ⟨hlt₀, hlt'⟩ := List.forall_mem_cons.1 hlt
    rw [coverFrom]
    split
    · refine ih (List.pairwise_cons.2
        ⟨fun h' hh' => hlast h' (List.mem_cons_of_mem _ hh'), (List.pairwise_cons.1 hsorted').2⟩)
        (List.forall_mem_cons.2 ⟨hlt₀.trans_le (le_max_left _ _), fun h' hh' => ?_⟩)
      exact hlt' h' (List.mem_cons_of_mem _ hh')
    · next hle =>
      obtain ⟨hlt'', hordered⟩ := ih hsorted' hlt'
      refine ⟨List.forall_mem_cons.2 ⟨hlt₀, hlt''⟩, List.pairwise_cons.2 ⟨fun h' hh' => ?_, hordered⟩⟩
      exact (not_le.1 hle).trans_le (coverFrom_start_le hsorted' h' hh')

end

section

variable {runs : List RunView}

theorem pairwise_hiddenIntervals :
    (hiddenIntervals runs).Pairwise fun h h' => h.1 ≤ h'.1 :=
  List.pairwise_insertionSort (fun h h' : Int × Int => h.1 ≤ h'.1) _

/-- What is hidden is the delimiters of a run. -/
theorem mem_hiddenIntervals {h : Int × Int} :
    h ∈ hiddenIntervals runs ↔ ∃ r ∈ runs, h ∈ r.delimiters := by
  rw [hiddenIntervals, List.mem_insertionSort, List.mem_flatMap]

/-- The merged ranges hide what the delimiters hide. -/
theorem coverIntervals_inRange (u : Int) :
    (∃ h ∈ coverIntervals (hiddenIntervals runs), InRange h u) ↔ Hidden runs u := by
  have hmem : (∃ h ∈ hiddenIntervals runs, InRange h u) ↔ Hidden runs u := by
    simp only [mem_hiddenIntervals, Hidden]
    exact ⟨fun ⟨h, ⟨r, hr, hh⟩, hu⟩ => ⟨r, hr, h, hh, hu⟩,
      fun ⟨r, hr, h, hh, hu⟩ => ⟨h, ⟨r, hr, hh⟩, hu⟩⟩
  have hsorted := @pairwise_hiddenIntervals runs
  rw [← hmem]
  clear hmem
  generalize hiddenIntervals runs = hidden at hsorted ⊢
  cases hidden with
  | nil => exact Iff.rfl
  | cons h hidden => exact coverFrom_inRange hsorted u

/-- What is covered is apart. -/
theorem apart_coverIntervals : Apart (coverIntervals (hiddenIntervals runs)) := by
  have hsorted := @pairwise_hiddenIntervals runs
  have hlt : ∀ h ∈ hiddenIntervals runs, h.1 < h.2 := by
    intro h hh
    obtain ⟨r, -, hr⟩ := mem_hiddenIntervals.1 hh
    exact r.lt_of_mem_delimiters hr
  generalize hiddenIntervals runs = hidden at hsorted hlt ⊢
  cases hidden with
  | nil => exact ⟨nofun, List.Pairwise.nil⟩
  | cons h hidden => exact apart_coverFrom hsorted hlt

end

/-! ## Gaps -/

section

variable {gs : Graphemes} {src : Text} {hidden : Int → Prop} {lim b q : Int} {out : Out}
  {covered : List (Int × Int)}

/-- A range that ends with a unit shown ends by the limit. -/
theorem le_limit (hlim : ∀ u, lim ≤ u → u < b → hidden u) {c : Int} (hc : c ≤ b)
    (hshown : ¬hidden (c - 1)) : c ≤ lim := by
  by_contra h
  exact hshown (hlim _ (by omega) (by omega))

/-- A gap in front of all that is covered is left to the end. -/
theorem emitGapFrom_of_le (h : ∀ h ∈ covered, b ≤ h.1) :
    emitGapFrom gs src b covered out q = (out, q) := by
  cases covered with
  | nil => rfl
  | cons h' covered => rw [emitGapFrom, if_pos (h h' List.mem_cons_self)]

/-- The rest of a gap: its covered ranges are left out, what is between them is written. -/
theorem writes_emitGapFrom (hb : b ≤ src.length) (hapart : Apart covered)
    (hlim : ∀ u, lim ≤ u → u < b → hidden u) (hf : out.Faithful src) (he : out.EndsBy q)
    (hq : 0 ≤ q) (hqb : q ≤ b) (hends : ∀ h ∈ covered, q < h.2)
    (hhidden : ∀ u, q ≤ u → u < b → (hidden u ↔ ∃ h ∈ covered, InRange h u)) :
    Writes src hidden lim out
      (if (emitGapFrom gs src b covered out q).2 < b then
        emitExact gs src (emitGapFrom gs src b covered out q).1
          (emitGapFrom gs src b covered out q).2 b 0 (-1)
      else (emitGapFrom gs src b covered out q).1) q b := by
  -- The rest of the gap when no covered range starts before its end.
  have hplain : ∀ {covered : List (Int × Int)} {out : Out} {q : Int}, (∀ h ∈ covered, b ≤ h.1) →
      out.Faithful src → out.EndsBy q → 0 ≤ q → q ≤ b →
      (∀ u, q ≤ u → u < b → (hidden u ↔ ∃ h ∈ covered, InRange h u)) →
      Writes src hidden lim out (if q < b then emitExact gs src out q b 0 (-1) else out) q b := by
    intro covered out q hbehind hf he hq hqb hhidden
    rcases hqb.eq_or_lt with rfl | hlt
    · rw [if_neg (lt_irrefl q)]
      exact Writes.nothing hf he
    · rw [if_pos hlt]
      refine writes_emitExact hf he hq hqb hb (le_limit hlim le_rfl fun hu => ?_) 0 (-1)
      obtain ⟨h, hh, hin⟩ := (hhidden (b - 1) (by omega) (by omega)).1 hu
      have := hbehind h hh
      have := hin.1
      omega
  induction covered generalizing out q with
  | nil => exact hplain (List.forall_mem_nil _) hf he hq hqb hhidden
  | cons h covered ih =>
    obtain ⟨hend, hends'⟩ := List.forall_mem_cons.1 hends
    have hlt := hapart.lt h List.mem_cons_self
    have hbehind : ∀ h' ∈ covered, h.2 < h'.1 := fun h' hh' => hapart.head_lt hh'
    by_cases hstop : b ≤ h.1
    · have hall : ∀ h' ∈ h :: covered, b ≤ h'.1 := List.forall_mem_cons.2
        ⟨hstop, fun h' hh' => hstop.trans (hlt.le.trans (hbehind h' hh').le)⟩
      rw [emitGapFrom_of_le hall]
      exact hplain hall hf he hq hqb hhidden
    rw [emitGapFrom, if_neg hstop, max_eq_right hend.le]
    rw [not_le] at hstop
    -- What is before the covered range.
    have hfirst : Writes src hidden lim out
        (if q < h.1 then emitExact gs src out q h.1 0 (-1) else out) q (max q h.1) := by
      by_cases hqh : q < h.1
      · rw [if_pos hqh, max_eq_right hqh.le]
        refine writes_emitExact hf he hq hqh.le (hstop.le.trans hb)
          (le_limit hlim hstop.le fun hu => ?_) 0 (-1)
        obtain ⟨h', hh', hin⟩ := (hhidden (h.1 - 1) (by omega) (by omega)).1 hu
        have hin := hin.1
        rcases List.mem_cons.1 hh' with rfl | hh'
        · omega
        · have := hbehind h' hh'
          omega
      · rw [if_neg hqh, max_eq_left (not_lt.1 hqh)]
        exact Writes.nothing hf he
    have hcovered : ∀ u, max q h.1 ≤ u → u < h.2 → u < b → hidden u := fun u hu hu' hub =>
      (hhidden u ((le_max_left _ _).trans hu) hub).2
        ⟨h, List.mem_cons_self, (le_max_right _ _).trans hu, hu'⟩
    by_cases hrest : h.2 < b
    · have hskip : Writes src hidden lim _ _ (max q h.1) h.2 := Writes.skip hfirst.faithful
        hfirst.endsBy (max_le hend.le hlt.le) fun u hu hu' => hcovered u hu hu' (hu'.trans hrest)
      refine (hfirst.trans hskip).trans (ih hapart.tail hskip.faithful hskip.endsBy (by omega)
        hrest.le (fun h' hh' => (hbehind h' hh').trans (hapart.tail.lt h' hh'))
        fun u hu hub => ?_)
      rw [hhidden u (hend.le.trans hu) hub, List.exists_mem_cons_iff]
      exact or_iff_right fun hin => absurd hin.2 (not_lt.2 hu)
    · rw [not_lt] at hrest
      rw [emitGapFrom_of_le fun h' hh' => hrest.trans (hbehind h' hh').le, if_neg (not_lt.2 hrest)]
      exact hfirst.trans (Writes.skip hfirst.faithful hfirst.endsBy (max_le hqb hstop.le)
        fun u hu hub => hcovered u hu (hub.trans_le hrest) hub)

/-- The search for the first covered range that ends behind `p` leaves the ranges that do. -/
theorem lt_of_mem_dropWhile (hapart : Apart covered) {p : Int} :
    ∀ h ∈ covered.dropWhile fun h => h.2 ≤ p, p < h.2 := by
  induction covered with
  | nil => exact nofun
  | cons h covered ih =>
    rw [List.dropWhile_cons]
    by_cases hle : h.2 ≤ p
    · rw [if_pos (decide_eq_true hle)]
      exact ih hapart.tail
    · rw [if_neg (by simpa using hle)]
      refine List.forall_mem_cons.2 ⟨not_le.1 hle, fun h' hh' => ?_⟩
      exact (not_le.1 hle).trans ((hapart.head_lt hh').trans (hapart.tail.lt h' hh'))

/-- Intervals that are past cover nothing further on. -/
theorem exists_mem_dropWhile {p u : Int} (hu : p ≤ u) :
    (∃ h ∈ covered.dropWhile fun h => h.2 ≤ p, InRange h u) ↔ ∃ h ∈ covered, InRange h u := by
  induction covered with
  | nil => exact Iff.rfl
  | cons h covered ih =>
    rw [List.dropWhile_cons]
    by_cases hle : h.2 ≤ p
    · rw [if_pos (decide_eq_true hle), ih, List.exists_mem_cons_iff]
      exact (or_iff_right fun hin => absurd (hin.2.trans_le hle) (not_lt.2 hu)).symm
    · rw [if_neg (by simpa using hle)]

/-- A gap is written up to its end, but for what is covered. -/
theorem writes_fillGap {p : Int} (hb : b ≤ src.length) (hapart : Apart covered)
    (hhidden : ∀ u, hidden u ↔ ∃ h ∈ covered, InRange h u)
    (hlim : ∀ u, lim ≤ u → u < b → hidden u) (hf : out.Faithful src) (he : out.EndsBy p)
    (hp : 0 ≤ p) (hpb : p ≤ b) :
    Writes src hidden lim out (fillGap gs src covered out p b) p b := by
  rw [fillGap]
  rcases hpb.eq_or_lt with rfl | hlt
  · rw [if_neg (lt_irrefl p)]
    exact Writes.nothing hf he
  rw [if_pos hlt]
  have hdrop : covered.dropWhile (fun h => decide (h.2 ≤ p)) <:+ covered := List.dropWhile_suffix _
  exact writes_emitGapFrom hb ⟨fun h hh => hapart.lt h (hdrop.subset hh),
    hapart.ordered.sublist hdrop.sublist⟩ hlim hf he hp hpb (lt_of_mem_dropWhile hapart)
    fun u hu _ => (hhidden u).trans (exists_mem_dropWhile hu).symm

end

/-! ## Runs -/

/-- The ranges lie end to end from `i` to `stop`. -/
def Chained : (i : Int) → List (Int × Int) → (stop : Int) → Prop
  | i, [], stop => i = stop
  | i, u :: units, stop => u.1 = i ∧ i < u.2 ∧ Chained u.2 units stop

/-- A chain of units does not end before it starts. -/
theorem Chained.le {i stop : Int} {units : List (Int × Int)} (h : Chained i units stop) :
    i ≤ stop := by
  induction units generalizing i with
  | nil => exact le_of_eq h
  | cons u units ih => exact h.2.1.le.trans (ih h.2.2)

/-- The units that code aligns with are chained. -/
theorem alignedCode_chained {src : Text} {stop i : Int} {shown : Text} {units : List (Int × Int)}
    (h : alignedCode src stop i shown = some units) : Chained i units stop := by
  induction shown generalizing i units with
  | nil =>
    rw [alignedCode] at h
    split at h
    · next heq =>
      cases h
      exact heq
    · cases h
  | cons unit shown ih =>
    rw [alignedCode] at h
    split at h
    · obtain ⟨rest, hrest, rfl⟩ := Option.map_eq_some_iff.1 h
      exact ⟨rfl, Int.lt_succ i, ih hrest⟩
    · split at h
      · obtain ⟨rest, hrest, rfl⟩ := Option.map_eq_some_iff.1 h
        exact ⟨rfl, by dsimp only; omega, ih hrest⟩
      · cases h

/-- A stretch cut off a chain leaves a chain. -/
theorem spanExact_chained {i stop : Int} {units : List (Int × Int)} (h : Chained i units stop) :
    i ≤ (spanExact i units).1 ∧ Chained (spanExact i units).1 (spanExact i units).2 stop := by
  induction units generalizing i with
  | nil => exact ⟨le_rfl, h⟩
  | cons u units ih =>
    obtain ⟨hstart, hlt, hrest⟩ := h
    rw [spanExact]
    split
    · obtain ⟨hle, hchain⟩ := ih hrest
      exact ⟨hlt.le.trans hle, hchain⟩
    · exact ⟨le_rfl, hstart, hlt, hrest⟩

section

variable {gs : Graphemes} {src : Text} {hidden : Int → Prop} {lim : Int} {out : Out}

/-- The units of a run's text are written, by induction on how many are left. -/
theorem writes_emitUnits {stop : Int} (hstop : stop ≤ src.length) (hlim : stop ≤ lim)
    (style : Nat) (run : Int) {fuel : Nat} {units : List (Int × Int)} {i : Int}
    (hfuel : units.length ≤ fuel) (hchain : Chained i units stop) (hf : out.Faithful src)
    (he : out.EndsBy i) (hi : 0 ≤ i) :
    Writes src hidden lim out (emitUnits gs src style run fuel units out) i stop := by
  induction fuel generalizing units i out with
  | zero =>
    rw [List.length_eq_zero_iff.1 (Nat.le_zero.1 hfuel)] at hchain
    cases hchain
    exact Writes.nothing hf he
  | succ fuel ih =>
    cases units with
    | nil =>
      cases hchain
      exact Writes.nothing hf he
    | cons u units =>
      obtain ⟨rfl, hlt, hrest⟩ := hchain
      have hlength := Nat.le_of_succ_le_succ hfuel
      rw [emitUnits]
      split
      · -- A dropped character goes with the one after it.
        have hunit : Writes src hidden lim out
            (out.add (src.substring (u.2 - 1) u.2) u.1 u.2 style false run false) u.1 u.2 :=
          Writes.add hf he hlt.le (hrest.le.trans hlim) (absurd · Bool.false_ne_true) _ _ _
        exact hunit.trans (ih hlength hrest hunit.faithful hunit.endsBy (hi.trans hlt.le))
      · obtain ⟨hle, hchain⟩ := spanExact_chained hrest
        have hspan : Writes src hidden lim out
            (emitExact gs src out u.1 (spanExact u.2 units).1 style run) u.1
            (spanExact u.2 units).1 :=
          writes_emitExact hf he hi (hlt.le.trans hle) (hchain.le.trans hstop)
            (hchain.le.trans hlim) style run
        exact hspan.trans (ih ((spanExact_length_le _ _).trans hlength) hchain hspan.faithful
          hspan.endsBy (hi.trans (hlt.le.trans hle)))

variable {covered : List (Int × Int)} {cs ce p : Int}

/-- A run that shows text of a record is written, from where the text before it ends. -/
theorem writes_emitRun (hapart : Apart covered)
    (hhidden : ∀ u, hidden u ↔ ∃ h ∈ covered, InRange h u)
    (hlim : ∀ u, lim ≤ u → u < ce → hidden u) (hce : ce ≤ src.length)
    (styles : List (Int × Nat)) {r : RunView} (hr : r.contentStart ≤ r.contentEnd)
    (hstart : r.contentStart < ce) (hstop : cs < r.contentEnd)
    (hrlim : min ce r.contentEnd ≤ lim)
    (hf : out.Faithful src) (he : out.EndsBy p) (hp : 0 ≤ p) (hcs : 0 ≤ cs) (hcsce : cs ≤ ce)
    (hbefore : p ≤ max cs r.contentStart) :
    (emitRun gs src covered styles cs ce out p r).2 = min ce r.contentEnd ∧
      Writes src hidden lim out (emitRun gs src covered styles cs ce out p r).1 p
        (min ce r.contentEnd) := by
  have ha : (if r.contentStart < cs then cs else r.contentStart) = max cs r.contentStart := by
    split <;> omega
  have hb : (if ce < r.contentEnd then ce else r.contentEnd) = min ce r.contentEnd := by
    split <;> omega
  have hab : max cs r.contentStart ≤ min ce r.contentEnd :=
    max_le (le_min hcsce hstop.le) (le_min hstart.le hr)
  have hgap : Writes src hidden lim out (fillGap gs src covered out p (max cs r.contentStart)) p
      (max cs r.contentStart) :=
    writes_fillGap (hab.trans ((min_le_left _ _).trans hce)) hapart hhidden
      (fun u hu hub => hlim u hu (hub.trans_le (hab.trans (min_le_left _ _)))) hf he hp hbefore
  have hplain : ∀ style, Writes src hidden lim
      (fillGap gs src covered out p (max cs r.contentStart))
      (if max cs r.contentStart < min ce r.contentEnd then
        emitExact gs src (fillGap gs src covered out p (max cs r.contentStart))
          (max cs r.contentStart) (min ce r.contentEnd) style r.index
      else fillGap gs src covered out p (max cs r.contentStart))
      (max cs r.contentStart) (min ce r.contentEnd) := by
    intro style
    rcases hab.eq_or_lt with heq | hlt
    · rw [if_neg heq.not_lt, ← heq]
      exact Writes.nothing hgap.faithful hgap.endsBy
    · rw [if_pos hlt]
      exact writes_emitExact hgap.faithful hgap.endsBy (hcs.trans (le_max_left _ _)) hab
        ((min_le_left _ _).trans hce) hrlim style r.index
  rw [emitRun]
  dsimp only
  rw [ha, hb]
  refine ⟨?_, hgap.trans ?_⟩
  · split <;> omega
  · split
    · exact hplain _
    · split
      · next hwhole =>
        -- The override stands for the whole run.
        have hrs : max cs r.contentStart = r.contentStart := max_eq_right hwhole.1
        have hre : min ce r.contentEnd = r.contentEnd := min_eq_right hwhole.2
        rw [hrs] at hgap ⊢
        rw [hre] at hrlim ⊢
        split
        · next units halign =>
          split at halign
          · exact writes_emitUnits (hwhole.2.trans hce) hrlim _ _ le_rfl
              (alignedCode_chained halign) hgap.faithful hgap.endsBy (hcs.trans hwhole.1)
          · cases halign
        · refine Writes.add hgap.faithful hgap.endsBy hr hrlim (fun hexact => ?_) _ _ _
          obtain ⟨hlength, hsame⟩ := Bool.and_eq_true_iff.1 hexact
          exact ⟨beq_iff_eq.1 hsame, of_decide_eq_true hlength⟩
      · exact hplain _

/-- The runs of a record are written one behind the other, up to an offset of the record. -/
theorem writes_emitRuns (hapart : Apart covered)
    (hhidden : ∀ u, hidden u ↔ ∃ h ∈ covered, InRange h u)
    (hlim : ∀ u, lim ≤ u → u < ce → hidden u) (hce : ce ≤ src.length)
    (styles : List (Int × Nat)) (hcs : 0 ≤ cs) (hcsce : cs ≤ ce) {runs : List RunView}
    (hruns : ∀ r ∈ runs, r.contentStart ≤ r.contentEnd ∧ p ≤ max cs r.contentStart ∧
      (min ce r.contentEnd ≤ lim ∨ ce ≤ r.contentStart))
    (hordered : runs.Pairwise fun q r => q.contentEnd ≤ r.contentStart)
    (hf : out.Faithful src) (he : out.EndsBy p) (hcsp : cs ≤ p) (hpce : p ≤ ce) :
    cs ≤ (emitRuns gs src covered styles cs ce runs out p).2 ∧
      (emitRuns gs src covered styles cs ce runs out p).2 ≤ ce ∧
      Writes src hidden lim out (emitRuns gs src covered styles cs ce runs out p).1 p
        (emitRuns gs src covered styles cs ce runs out p).2 := by
  -- By induction on the runs, each of which is written from where the one before it ended.
  induction runs generalizing out p with
  | nil => exact ⟨hcsp, hpce, Writes.nothing hf he⟩
  | cons r runs ih =>
    obtain ⟨⟨hr, hbefore, hrlim⟩, hruns⟩ := List.forall_mem_cons.1 hruns
    obtain ⟨hbehind, hordered⟩ := List.pairwise_cons.1 hordered
    rw [emitRuns]
    split
    · exact ⟨hcsp, hpce, Writes.nothing hf he⟩
    next hstart =>
    split
    · exact ih hruns hordered hf he hcsp hpce
    next hstop =>
    rw [not_le] at hstart hstop
    obtain ⟨hend, hrun⟩ := @writes_emitRun gs src hidden lim out covered cs ce p hapart hhidden hlim
      hce styles r hr hstart hstop (hrlim.resolve_right (not_le.2 hstart)) hf he (hcs.trans hcsp)
      hcs hcsce hbefore
    dsimp only
    rw [hend]
    have hruns' : ∀ q ∈ runs, q.contentStart ≤ q.contentEnd ∧
        min ce r.contentEnd ≤ max cs q.contentStart ∧
        (min ce q.contentEnd ≤ lim ∨ ce ≤ q.contentStart) :=
      fun q hq => ⟨(hruns q hq).1, le_max_of_le_right ((min_le_right _ _).trans (hbehind q hq)),
        (hruns q hq).2.2⟩
    obtain ⟨h₁, h₂, hrest⟩ := ih hruns' hordered hrun.faithful hrun.endsBy
      (le_min hcsce hstop.le) (min_le_left _ _)
    exact ⟨h₁, h₂, hrun.trans hrest⟩

end

/-! ## The records of a leaf -/

/-- Some run has this one as its parent. -/
def RunView.HasChild (runs : List RunView) (r : RunView) : Prop :=
  ∃ q ∈ runs, q.parent = some r.index

/-- A soft or a hard line break. -/
def RunView.IsBreak (r : RunView) : Prop :=
  r.kind = RunKind.softBreak ∨ r.kind = RunKind.hardBreak

instance (runs : List RunView) (r : RunView) : Decidable (r.HasChild runs) :=
  inferInstanceAs (Decidable (∃ q ∈ runs, q.parent = some r.index))

instance (r : RunView) : Decidable r.IsBreak := inferInstanceAs (Decidable (_ ∨ _))

namespace RenderModel

/-- The schema's invariants of the runs of an inline leaf. Runs are in document order and nest:
    a later run lies behind an earlier one, or inside it where that one has children. A line
    break has no children and owns the end of its line, whose content it comes after the start
    of; what content it has, the spaces before the line ending, reaches the line's end. -/
structure InlineConforms (m : RenderModel) (src : Text) (b : Nat) : Prop where
  range : ∀ r ∈ m.runsOf b, r.start ≤ r.contentStart ∧ r.contentStart ≤ r.contentEnd ∧
    r.contentEnd ≤ r.stop
  order : (m.runsOf b).Pairwise fun q r =>
    q.stop ≤ r.start ∨ q.HasChild (m.runsOf b) ∧ q.start ≤ r.start ∧ r.stop ≤ q.stop
  breakChild : ∀ r ∈ m.runsOf b, r.IsBreak → ¬r.HasChild (m.runsOf b)
  breakEnd : ∀ r ∈ m.runsOf b, r.IsBreak → m.lineEndOf src (m.lineAt r.start) < r.stop
  breakContent : ∀ r ∈ m.runsOf b, r.IsBreak → r.contentStart < r.contentEnd →
    r.contentEnd = m.lineEndOf src (m.lineAt r.start)
  breakStart : ∀ r ∈ m.runsOf b, r.IsBreak → ∀ c ∈ m.contentOf b, c.line = m.lineAt r.start →
    c.start ≤ r.start

end RenderModel

/-- The leaf runs are those without children that are no breaks. -/
theorem mem_leafRuns {runs : List RunView} {r : RunView} :
    r ∈ leafRuns runs ↔ r ∈ runs ∧ ¬r.IsBreak ∧ ¬r.HasChild runs := by
  simp only [leafRuns, List.mem_filter, decide_eq_true_eq, RunView.IsBreak, RunView.HasChild,
    not_or, not_exists, not_and, and_assoc, ne_eq]

/-- Where the runs of a leaf break the line `l`: at its end, inside a code run, or at one of the
    line breaks. -/
def BreaksAt (m : RenderModel) (src : Text) (runs : List RunView) (l start : Int) : Prop :=
  start = m.lineEndOf src l ∨ ∃ r ∈ runs, r.IsBreak ∧ m.lineAt r.start = l ∧
    start = if r.contentStart < r.contentEnd then r.contentEnd else r.start

section

variable {m : RenderModel} {src : Text}

/-- A break of a code span is at the end of a line. -/
theorem mem_codeBreaks {run : Int} {n : Nat} {line : Int} {breaks : Breaks} {x : Int × Int}
    (h : x ∈ (codeBreaks m src run n line breaks).starts) :
    x ∈ breaks.starts ∨ x.2 = m.lineEndOf src x.1 := by
  induction n generalizing line breaks with
  | zero => exact Or.inl h
  | succ n ih =>
    rcases ih h with h | h
    · rcases List.mem_cons.1 h with rfl | h
      · exact Or.inr rfl
      · exact Or.inl h
    · exact Or.inr h

/-- A break that a run puts is one of the run. -/
theorem mem_runBreaks {breaks : Breaks} {r : RunView} {x : Int × Int}
    (h : x ∈ (runBreaks m src breaks r).starts) :
    x ∈ breaks.starts ∨ BreaksAt m src [r] x.1 x.2 := by
  rw [runBreaks] at h
  split at h
  · next hkind =>
    rcases List.mem_cons.1 h with rfl | h
    · exact Or.inr (Or.inr ⟨r, List.mem_singleton_self r, hkind, rfl, rfl⟩)
    · exact Or.inl h
  · split at h
    · exact (mem_codeBreaks h).imp_right Or.inl
    · exact Or.inl h

/-- A break that runs put is one of theirs. -/
theorem breaksAt_of_mem {runs : List RunView} {breaks : Breaks} {x : Int × Int}
    (h : x ∈ (runs.foldl (runBreaks m src) breaks).starts) :
    x ∈ breaks.starts ∨ BreaksAt m src runs x.1 x.2 := by
  induction runs generalizing breaks with
  | nil => exact Or.inl h
  | cons r runs ih =>
    rcases ih h with h | h
    · rcases mem_runBreaks h with h | h | ⟨q, hq, h⟩
      · exact Or.inl h
      · exact Or.inr (Or.inl h)
      · cases List.mem_singleton.1 hq
        exact Or.inr (Or.inr ⟨r, List.mem_cons_self, h⟩)
    · exact Or.inr (h.imp_right fun ⟨q, hq, h⟩ => ⟨q, List.mem_cons_of_mem _ hq, h⟩)

/-- Nothing that the record `c` shows lies behind `lim`. -/
structure LimitOf (runs : List RunView) (c : ContentView) (lim : Int) : Prop where
  start_le : c.start ≤ lim
  hidden : ∀ u, lim ≤ u → u < c.stop → Hidden runs u
  leaf : ∀ r ∈ leafRuns runs, min c.stop r.contentEnd ≤ lim ∨ c.stop ≤ r.contentStart

/-- A place past a piece limits it. -/
theorem limitOf_of_stop_le {runs : List RunView} {c : ContentView} {lim : Int}
    (hc : c.start ≤ c.stop) (h : c.stop ≤ lim) : LimitOf runs c lim where
  start_le := hc.trans h
  hidden _ hu hu' := absurd hu' (not_lt.2 (h.trans hu))
  leaf _ _ := Or.inl ((min_le_left _ _).trans h)

/-- The record `c` is shown whole, but for what delimiters hide. -/
theorem writes_record {gs : Graphemes} {runs rest : List RunView} {styles : List (Int × Nat)}
    {c : ContentView} {lim : Int} {out : Out} (hrange : ∀ r ∈ runs, r.contentStart ≤ r.contentEnd)
    (hordered : (leafRuns runs).Pairwise fun q r => q.contentEnd ≤ r.contentStart)
    (hrest : rest.Sublist (leafRuns runs)) (hlim : LimitOf runs c lim) (hc : 0 ≤ c.start)
    (hle : c.start ≤ c.stop) (hstop : c.stop ≤ src.length) (hf : out.Faithful src)
    (he : out.EndsBy c.start) :
    Writes src (Hidden runs) lim out
      (fillGap gs src (coverIntervals (hiddenIntervals runs))
        (emitRuns gs src (coverIntervals (hiddenIntervals runs)) styles c.start c.stop rest out
          c.start).1
        (emitRuns gs src (coverIntervals (hiddenIntervals runs)) styles c.start c.stop rest out
          c.start).2 c.stop) c.start c.stop := by
  have hhidden : ∀ u, Hidden runs u ↔
      ∃ h ∈ coverIntervals (hiddenIntervals runs), InRange h u :=
    fun u => (coverIntervals_inRange u).symm
  obtain ⟨h₁, h₂, hruns⟩ := @writes_emitRuns gs src (Hidden runs) lim out
    (coverIntervals (hiddenIntervals runs)) c.start c.stop c.start apart_coverIntervals hhidden
    hlim.hidden hstop styles hc hle rest
    (fun r hr => ⟨hrange r (mem_leafRuns.1 (hrest.subset hr)).1, le_max_left _ _,
      hlim.leaf r (hrest.subset hr)⟩)
    (hordered.sublist hrest) hf he le_rfl hle
  exact hruns.trans (writes_fillGap hstop apart_coverIntervals hhidden hlim.hidden hruns.faithful
    hruns.endsBy (hc.trans h₁) h₂)

end

/-! ## The walk over the records -/

namespace RenderModel.InlineConforms

variable {m : RenderModel} {src : Text} {b : Nat}

/-- The runs that show text lie one behind the other. -/
theorem leafRuns_ordered (h : m.InlineConforms src b) :
    (leafRuns (m.runsOf b)).Pairwise fun q r => q.contentEnd ≤ r.contentStart := by
  refine (h.order.sublist List.filter_sublist).imp_of_mem fun {q r} hq hr hqr => ?_
  have hq := mem_leafRuns.1 hq
  have hr := mem_leafRuns.1 hr
  have hqr := hqr.resolve_right fun hnested => hq.2.2 hnested.1
  exact ((h.range q hq.1).2.2.trans hqr).trans (h.range r hr.1).1

/-- A run that shows text lies before a line break, or behind it. -/
theorem leafRun_break (h : m.InlineConforms src b) {q r : RunView}
    (hq : q ∈ leafRuns (m.runsOf b)) (hr : r ∈ m.runsOf b) (hbreak : r.IsBreak) :
    q.stop ≤ r.start ∨ r.stop ≤ q.start := by
  obtain ⟨hmem, hnot, hchild⟩ := mem_leafRuns.1 hq
  let R : RunView → RunView → Prop := fun q r =>
    q.stop ≤ r.start ∨ r.stop ≤ q.start ∨ q.HasChild (m.runsOf b) ∨ r.HasChild (m.runsOf b)
  have hsymm : Std.Symm R := ⟨fun _ _ h => by
    rcases h with h | h | h | h
    · exact Or.inr (Or.inl h)
    · exact Or.inl h
    · exact Or.inr (Or.inr (Or.inr h))
    · exact Or.inr (Or.inr (Or.inl h))⟩
  have hpairs : (m.runsOf b).Pairwise R :=
    h.order.imp fun hqr => hqr.imp_right fun hnested => Or.inr (Or.inl hnested.1)
  rcases hpairs.forall hmem hr fun heq => hnot (heq ▸ hbreak) with h' | h' | h' | h'
  · exact Or.inl h'
  · exact Or.inr h'
  · exact absurd h' hchild
  · exact absurd h' (h.breakChild r hr hbreak)

/-- All that a record shows comes before the break of its line, and the break before the next
    record. -/
theorem limitOf_of_breaksAt (h : m.InlineConforms src b) (hm : m.SchemaConforms src)
    (hb : b < m.blockCount) (hleaf : RenderModel.isLeaf (m.blockKind b) = true)
    {previous c : ContentView} (hprevious : previous ∈ m.contentOf b) (hc : c ∈ m.contentOf b)
    (hlt : previous.line < c.line) {start : Int}
    (hstart : BreaksAt m src (m.runsOf b) previous.line start) :
    LimitOf (m.runsOf b) previous start ∧ start ≤ c.start := by
  obtain ⟨hl, hlow, hle, hstop⟩ := hm.contentLine b hb hleaf previous hprevious
  obtain ⟨hl', hlow', -, -⟩ := hm.contentLine b hb hleaf c hc
  have hnat : ∃ n : Nat, previous.line = n := by
    obtain ⟨i, -, rfl⟩ := List.mem_map.1 hprevious
    exact ⟨_, rfl⟩
  obtain ⟨n, hn⟩ := hnat
  rw [hn] at hl hlow hstop hstart hlt
  have hnext : (lineBound src (n + 1) : Int) ≤ c.start :=
    (Int.ofNat_le.2 (lineBound_mono (by omega))).trans hlow'
  have hend : m.lineEndOf src n ≤ lineBound src (n + 1) :=
    hm.table.lineEndOf_le_lineBound (by omega)
  -- A break at the line's end, where the record stops at the latest.
  have hlineEnd : start = m.lineEndOf src n →
      LimitOf (m.runsOf b) previous start ∧ start ≤ c.start := by
    rintro rfl
    exact ⟨limitOf_of_stop_le hle hstop, hend.trans hnext⟩
  rcases hstart with hstart | ⟨r, hr, hbreak, hline, hstart⟩
  · exact hlineEnd hstart
  have hownEnd := h.breakEnd r hr hbreak
  have hcontent := h.breakContent r hr hbreak
  rw [hline] at hownEnd hcontent
  by_cases hempty : r.contentStart < r.contentEnd
  · rw [if_pos hempty] at hstart
    exact hlineEnd (hstart.trans (hcontent hempty))
  rw [if_neg hempty] at hstart
  subst hstart
  obtain ⟨hrs, hre, hstop'⟩ := h.range r hr
  -- A break without content hides all of itself.
  refine ⟨⟨h.breakStart r hr hbreak previous hprevious (hn.trans hline.symm), fun u hu hu' => ?_,
    fun q hq => ?_⟩, ?_⟩
  · refine ⟨r, hr, ?_⟩
    by_cases hopening : u < r.contentStart
    · refine ⟨(r.start, r.contentStart), List.mem_append_left _ ?_, hu, hopening⟩
      rw [if_pos (hu.trans_lt hopening)]
      exact List.mem_singleton_self _
    · have hclosing : r.contentEnd ≤ u ∧ u < r.stop := by omega
      refine ⟨(r.contentEnd, r.stop), List.mem_append_right _ ?_, hclosing⟩
      rw [if_pos (hclosing.1.trans_lt hclosing.2)]
      exact List.mem_singleton_self _
  · obtain ⟨hqs, -, hqe⟩ := h.range q (mem_leafRuns.1 hq).1
    rcases h.leafRun_break hq hr hbreak with hqr | hqr
    · exact Or.inl ((min_le_right _ _).trans (hqe.trans hqr))
    · exact Or.inr (hstop.trans (hownEnd.le.trans (hqr.trans hqs)))
  · have hbefore := (hm.table.lineOfUtf16_eq_iff.1 (Int.ofNat_inj.1 hline)).2.2 (by omega)
    omega

/-- What the walk has written before a record: all of it lies before the record. -/
theorem endsBy_start (hm : m.SchemaConforms src) (hb : b < m.blockCount)
    (hleaf : RenderModel.isLeaf (m.blockKind b) = true) {previous c : ContentView}
    (hprevious : previous ∈ m.contentOf b) (hc : c ∈ m.contentOf b) (hlt : previous.line < c.line)
    {out : Out} (hlimit : ∀ lim, LimitOf (m.runsOf b) previous lim → out.EndsBy lim) :
    out.EndsBy c.start :=
  (hlimit _ (limitOf_of_stop_le (hm.contentLine b hb hleaf previous hprevious).2.2.1 le_rfl)).mono
    (content_stop_le hm hb hleaf hprevious hc hlt)

end RenderModel.InlineConforms

section

variable {gs : Graphemes} {m : RenderModel} {src : Text} {options : ProjectionOptions} {b : Nat}

/-- The line break before a record lies between what is written and the record. -/
theorem writes_withBreak (h : m.InlineConforms src b) (hm : m.SchemaConforms src)
    (hb : b < m.blockCount) (hleaf : RenderModel.isLeaf (m.blockKind b) = true)
    {cx : InlineContext} (hcx : cx.breaks = (m.runsOf b).foldl (runBreaks m src) ⟨[], []⟩)
    {covered : List (Int × Int)} {previous c : ContentView} (hprevious : previous ∈ m.contentOf b)
    (hc : c ∈ m.contentOf b) (hlt : previous.line < c.line) {out : Out} (hf : out.Faithful src)
    (hlimit : ∀ lim, LimitOf (m.runsOf b) previous lim → out.EndsBy lim) :
    ∃ start ≤ c.start, Writes src (fun _ => True) c.start out
      (withBreak options cx out covered (some previous) c).1 start c.start := by
  have hstop := (hm.contentLine b hb hleaf previous hprevious).2.2.1
  have hend := content_stop_le hm hb hleaf hprevious hc hlt
  have hadd : ∀ start, LimitOf (m.runsOf b) previous start → start ≤ c.start →
      Writes src (fun _ => True) c.start out (emitBreak options cx out previous c start) start
        c.start := by
    intro start hlim hle
    rw [emitBreak]
    split <;> exact Writes.add hf (hlimit start hlim) hle le_rfl (absurd · Bool.false_ne_true) _ _ _
  rw [withBreak]
  split
  · exact ⟨c.start, le_rfl, Writes.nothing hf (RenderModel.InlineConforms.endsBy_start hm hb hleaf
      hprevious hc hlt hlimit)⟩
  · next start covered' hstart =>
    rw [breakBefore] at hstart
    split at hstart
    -- A run owns the break: it starts at a limit of what the record before may write.
    · next start' hlookup =>
      cases hstart
      obtain ⟨l₁, l₂, hsplit, -⟩ := List.lookup_eq_some_iff.1 hlookup
      have hmem : (previous.line, start) ∈ cx.breaks.starts :=
        hsplit ▸ List.mem_append_right _ List.mem_cons_self
      rw [hcx] at hmem
      obtain ⟨hlim, hle⟩ := h.limitOf_of_breaksAt hm hb hleaf hprevious hc hlt
        ((breaksAt_of_mem hmem).resolve_left List.not_mem_nil)
      exact ⟨start, hle, hadd start hlim hle⟩
    · -- No run owns the break: it starts where the record before stops.
      dsimp only at hstart
      split at hstart
      · split at hstart
        all_goals
          split at hstart
          · cases hstart
          · cases hstart
            exact ⟨_, hend, hadd _ (limitOf_of_stop_le hstop le_rfl) hend⟩
      · cases hstart

/-- The spaces of a shared tab stand for no source. -/
theorem writes_emitVirtual {out : Out} {c : ContentView} (hf : out.Faithful src)
    (he : out.EndsBy c.start) :
    Writes src (fun _ => True) c.start out (emitVirtual out c) c.start c.start := by
  rw [emitVirtual]
  split
  · exact Writes.add hf he le_rfl le_rfl (absurd · Bool.false_ne_true) _ _ _
  · exact Writes.nothing hf he

/-- The walk over the records from `previous` on: the text stays faithful, and each record is
    shown but for what delimiters hide. -/
theorem inlineWalk_shows (h : m.InlineConforms src b) (hm : m.SchemaConforms src)
    (hb : b < m.blockCount) (hleaf : RenderModel.isLeaf (m.blockKind b) = true)
    {cx : InlineContext} (hbreaks : cx.breaks = (m.runsOf b).foldl (runBreaks m src) ⟨[], []⟩)
    (hcovered : cx.covered = coverIntervals (hiddenIntervals (m.runsOf b)))
    {content : List ContentView} (hcontent : ∀ c ∈ content, c ∈ m.contentOf b)
    (hlines : content.Pairwise fun c c' => c.line < c'.line) {previous : Option ContentView}
    (hprevious : ∀ p ∈ previous, p ∈ m.contentOf b ∧ ∀ c ∈ content, p.line < c.line)
    {st : InlineState} (hf : st.out.Faithful src)
    (hlimit : ∀ p ∈ previous, ∀ lim, LimitOf (m.runsOf b) p lim → st.out.EndsBy lim)
    (hnone : previous = none → st.out.segments = [])
    (hruns : st.runs.Sublist (leafRuns (m.runsOf b))) :
    (inlineWalk gs src options cx previous st content).out.Faithful src ∧
      (∀ x, st.out.EndsBy x → (∀ c ∈ content, c.stop ≤ x) →
        (inlineWalk gs src options cx previous st content).out.EndsBy x) ∧
      (∀ u, st.out.Paints u → (inlineWalk gs src options cx previous st content).out.Paints u) ∧
      ∀ c ∈ content, ∀ u, c.start ≤ u → u < c.stop →
        (inlineWalk gs src options cx previous st content).out.Paints u ∨
          Hidden (m.runsOf b) u := by
  -- By induction on the records. Each writes its break, the columns of a tab and its own range, in
  -- that order; what it writes ends by its limit, past which only delimiters are left.
  induction content generalizing previous st with
  | nil => exact ⟨hf, fun _ hx _ => hx, fun _ hu => hu, fun _ h => absurd h List.not_mem_nil⟩
  | cons c content ih =>
    obtain ⟨hc, hcontent⟩ := List.forall_mem_cons.1 hcontent
    obtain ⟨hbehind, hlines⟩ := List.pairwise_cons.1 hlines
    obtain ⟨hl, hlow, hle, hstop⟩ := hm.contentLine b hb hleaf c hc
    have hlength : c.stop ≤ src.length := by
      obtain ⟨i, -, rfl⟩ := List.mem_map.1 hc
      exact hstop.trans (lineEndOf_le_length hm (Int.ofNat_lt.1 hl))
    have hzero : 0 ≤ c.start := (Int.natCast_nonneg _).trans hlow
    have hbreak : ∃ start, Writes src (fun _ => True) c.start st.out
        (withBreak options cx st.out st.covered previous c).1 start c.start := by
      cases previous with
      | none =>
        refine ⟨_, Writes.nothing hf fun s hs => ?_⟩
        rw [hnone rfl] at hs
        cases hs
      | some p =>
        obtain ⟨hp, hlt⟩ := hprevious p rfl
        obtain ⟨start, -, hwrites⟩ := writes_withBreak h hm hb hleaf hbreaks hp hc
          (hlt c List.mem_cons_self) hf (hlimit p rfl)
        exact ⟨start, hwrites⟩
    obtain ⟨start, hbreak⟩ := hbreak
    have hvirtual := writes_emitVirtual hbreak.faithful hbreak.endsBy
    have hrest : (st.runs.dropWhile fun r => r.contentEnd ≤ c.start).Sublist
        (leafRuns (m.runsOf b)) := (List.dropWhile_sublist _).trans hruns
    have hrecord : ∀ lim, LimitOf (m.runsOf b) c lim →
        Writes src (Hidden (m.runsOf b)) lim
          (emitVirtual (withBreak options cx st.out st.covered previous c).1 c)
          (inlineStep gs src options cx previous st c).out c.start c.stop := by
      intro lim hlim
      simp only [inlineStep, hcovered]
      exact writes_record (fun r hr => (h.range r hr).2.1) h.leafRuns_ordered hrest hlim hzero hle
        hlength hvirtual.faithful hvirtual.endsBy
    have hwhole := hrecord c.stop (limitOf_of_stop_le hle le_rfl)
    obtain ⟨hfaithful, hends, hkeeps, hshows⟩ := ih hcontent hlines
      (fun p hp => Option.mem_some_iff.1 hp ▸ ⟨hc, hbehind⟩) hwhole.faithful
      (fun p hp lim hlim => by
        cases hp
        exact (hrecord lim hlim).limit (hvirtual.endsBy.mono hlim.start_le))
      (fun h => by cases h) hrest
    refine ⟨hfaithful, fun x _ hx => ?_,
      fun u hu => hkeeps u (hwhole.keeps u (hvirtual.keeps u (hbreak.keeps u hu))),
      List.forall_mem_cons.2 ⟨fun u hu hu' => ?_, hshows⟩⟩
    · obtain ⟨hcx, hx⟩ := List.forall_mem_cons.1 hx
      exact hends x (hwhole.endsBy.mono hcx) hx
    · exact (hwhole.shows u hu hu').imp_left (hkeeps u)

end

/-! ## The row -/

/-- What a row shows. -/
def ProjectedRow.out (row : ProjectedRow) : Out := ⟨row.text, row.segments⟩

/-- A row shows each content character of a leaf once: its segments cover its text one after the
    other, run forward in the source without overlap, and are the source where they say so; a
    unit of a content record lies in one segment, or a delimiter of a run hides it and no exact
    segment shows it. -/
structure ProjectedRow.ShowsOnce (src : Text) (content : List ContentView) (runs : List RunView)
    (row : ProjectedRow) : Prop where
  tiles : Tiles 0 row.segments row.text.length
  forward : ∀ s ∈ row.segments, s.sourceStart ≤ s.sourceEnd
  ordered : row.segments.Pairwise fun s t => s.sourceEnd ≤ t.sourceStart
  exact : ∀ s ∈ row.segments, s.exact = true →
    row.text.substring s.displayStart s.displayEnd = src.substring s.sourceStart s.sourceEnd
  once : ∀ c ∈ content, ∀ u, c.start ≤ u → u < c.stop →
    (row.segments.countP fun s => s.Covers u) = 1 ∨
      Hidden runs u ∧ ∀ s ∈ row.segments, s.exact = true → ¬s.Covers u

/-- Segments that do not overlap have a unit in one of them at most. -/
theorem countP_covers {segments : List Segment} {u : Int}
    (hordered : segments.Pairwise fun s t => s.sourceEnd ≤ t.sourceStart)
    (h : ∃ s ∈ segments, s.Covers u) : (segments.countP fun s => s.Covers u) = 1 := by
  induction segments with
  | nil =>
    obtain ⟨s, hs, -⟩ := h
    cases hs
  | cons s segments ih =>
    obtain ⟨hbehind, hordered⟩ := List.pairwise_cons.1 hordered
    by_cases hs : s.Covers u
    · have hnone : (segments.countP fun s => decide (s.Covers u)) = 0 :=
        List.countP_eq_zero.2 fun t ht htu =>
          absurd (hs.2.trans_le (hbehind t ht)) (not_lt.2 (of_decide_eq_true htu).1)
      rw [List.countP_cons, if_pos (decide_eq_true hs), hnone]
    · rw [List.countP_cons, if_neg (by simpa using hs)]
      exact ih hordered (((List.exists_mem_cons_iff _ _ _).1 h).resolve_left hs)

namespace Out.Faithful

/-- A faithful text that leaves out only what is hidden shows the content once. -/
theorem once {src : Text} {out : Out} {runs : List RunView} (h : out.Faithful src) {u : Int}
    (hu : out.Paints u ∨ Hidden runs u) :
    (out.segments.countP fun s => s.Covers u) = 1 ∨
      Hidden runs u ∧ ∀ s ∈ out.segments, s.exact = true → ¬s.Covers u := by
  by_cases hpaints : out.Paints u
  · exact Or.inl (countP_covers h.ordered hpaints)
  · exact Or.inr ⟨hu.resolve_left hpaints, fun s hs _ hsu => hpaints ⟨s, hs, hsu⟩⟩

end Out.Faithful

section

variable {gs : Graphemes} {m : RenderModel} {src : Text} {options : ProjectionOptions} {b : Nat}

/-- A bare prefix is shown as it is. -/
theorem faithful_barePrefixRow {block line : Nat} {start stop : Int} {shells : List Shell}
    (htiles : Tiles 0 (barePrefixRow src block line start stop shells).segments
      (barePrefixRow src block line start stop shells).text.length) (hle : start ≤ stop) :
    (barePrefixRow src block line start stop shells).out.Faithful src := by
  refine ⟨htiles, List.forall_mem_singleton.2 hle, List.pairwise_singleton _ _,
    List.forall_mem_singleton.2 fun _ => ?_, List.forall_mem_singleton.2 fun _ => ?_⟩
  · rw [ProjectedRow.out, barePrefixRow, Text.substring, Int.toNat_natCast, List.drop_zero]
    refine List.take_of_length_le ((Text.length_substring_le _ _ _).trans ?_)
    dsimp only
    omega
  · dsimp only
    omega

/-- The extent of an inline leaf has all of its records. -/
theorem inlineResult_extent (hm : m.SchemaConforms src) (hb : b < m.blockCount)
    (hleaf : RenderModel.isLeaf (m.blockKind b) = true) {c : ContentView}
    (hc : c ∈ m.contentOf b) :
    (inlineResult gs m src options (m.leaf b)).sourceStart ≤ c.start ∧
      c.stop ≤ (inlineResult gs m src options (m.leaf b)).sourceEnd := by
  -- The extent starts at the first record and ends at the last, and the records are in the order of
  -- their lines.
  have hlines := hm.lineOrder b hb hleaf
  have hrecord := hm.contentLine b hb hleaf
  have hbehind : ∀ {c c' : ContentView}, c ∈ m.contentOf b → c' ∈ m.contentOf b →
      c.line < c'.line → c.stop ≤ c'.start := content_stop_le hm hb hleaf
  have hrecords : (m.leaf b).content = m.contentOf b := rfl
  simp only [inlineResult, hrecords]
  generalize m.contentOf b = content at hc hlines hrecord hbehind ⊢
  cases content with
  | nil => cases hc
  | cons first rest =>
    have hzero : 0 ≤ first.start := by
      have := (hrecord first List.mem_cons_self).2.1
      omega
    have hfirst : ∀ x : Int, (if (-1 : Int) < 0 then first.start else x) = first.start :=
      fun _ => rfl
    simp only [inlineWalk]
    rw [inlineWalk_extent.2, inlineWalk_extent.1 (by exact hzero)]
    simp only [inlineStep, hfirst]
    have hpairs := List.pairwise_cons.1 hlines
    refine ⟨?_, ?_⟩
    · rcases List.mem_cons.1 hc with rfl | hrest
      · exact le_rfl
      · exact (hrecord first List.mem_cons_self).2.2.1.trans
          (hbehind List.mem_cons_self hc (hpairs.1 c hrest))
    · cases hlast : rest.getLast? with
      | none =>
        rw [List.getLast?_eq_none_iff] at hlast
        subst hlast
        cases List.mem_singleton.1 hc
        exact le_rfl
      | some last =>
        obtain ⟨initial, hinitial⟩ := List.getLast?_eq_some_iff.1 hlast
        have hin : last ∈ first :: rest := List.mem_cons_of_mem _ (List.mem_of_getLast? hlast)
        rw [hinitial] at hc hlines
        rcases List.mem_append.1 (List.cons_append ▸ hc) with hbefore | hsame
        · have hlt := (List.pairwise_append.1 (List.cons_append ▸ hlines)).2.2 c hbefore last
            (List.mem_singleton_self last)
          exact (hbehind (hinitial ▸ hc) hin hlt).trans (hrecord last hin).2.2.1
        · cases List.mem_singleton.1 hsame
          exact le_rfl

/-- What the walk over an inline leaf writes is faithful, ends with its last record, and leaves out
    only what delimiters hide. -/
theorem inlineResult_shows (hm : m.SchemaConforms src) (hb : b < m.blockCount)
    (hleaf : RenderModel.isLeaf (m.blockKind b) = true) (h : m.InlineConforms src b)
    (gs : Graphemes) (options : ProjectionOptions) :
    (inlineResult gs m src options (m.leaf b)).out.Faithful src ∧
      (∀ x, (∀ c ∈ m.contentOf b, c.stop ≤ x) →
        (inlineResult gs m src options (m.leaf b)).out.EndsBy x) ∧
      ∀ c ∈ m.contentOf b, ∀ u, c.start ≤ u → u < c.stop →
        (inlineResult gs m src options (m.leaf b)).out.Paints u ∨ Hidden (m.runsOf b) u := by
  obtain ⟨hf, hends, -, hshows⟩ := @inlineWalk_shows gs m src options b h hm hb hleaf
    (InlineContext.mk (m.leaf b).rowLines.1 (m.leaf b).rowLines.2
      (coverIntervals (hiddenIntervals (m.runsOf b))) (computeStyles [] (m.runsOf b))
      ((m.runsOf b).foldl (runBreaks m src) ⟨[], []⟩)) rfl rfl (m.contentOf b) (fun _ h => h)
    (hm.lineOrder b hb hleaf) none (fun _ h => by cases h)
    (InlineState.mk ⟨[], []⟩ (-1) (-1) (List.replicate (m.leaf b).rowLines.2 (-1))
      (List.replicate (m.leaf b).rowLines.2 (-1)) (List.replicate (m.leaf b).rowLines.2 (-1))
      (coverIntervals (hiddenIntervals (m.runsOf b))) (leafRuns (m.runsOf b)))
    Out.faithful_nil (fun _ h => by cases h) (fun _ => rfl) (List.Sublist.refl _)
  exact ⟨hf, fun x => hends x nofun, hshows⟩

/-- The row of an inline leaf is faithful, a bare prefix included, and leaves out only what
    delimiters hide. -/
theorem inlineRow_faithful (hm : m.SchemaConforms src) (hb : b < m.blockCount)
    (hinline : RenderModel.isInline (m.blockKind b) = true) (h : m.InlineConforms src b)
    (gs : Graphemes) (options : ProjectionOptions) (shells : List Shell) (cell : CellFields) :
    (inlineRow gs m src options b (m.leaf b) shells cell).out.Faithful src ∧
      ∀ c ∈ m.contentOf b, ∀ u, c.start ≤ u → u < c.stop →
        (inlineRow gs m src options b (m.leaf b) shells cell).out.Paints u ∨
          Hidden (m.runsOf b) u := by
  have hleaf : RenderModel.isLeaf (m.blockKind b) = true := by
    rw [RenderModel.isLeaf, hinline, Bool.true_or]
  have htiles := (@shape_inlineRow gs m src hm b hb hinline options shells cell).tiles
  simp only [inlineRow] at htiles ⊢
  split
  · next hbare =>
    rw [if_pos hbare] at htiles
    obtain ⟨-, -, hempty, -, hattr⟩ := hbare
    have hattr : _ - (m.leaf b).start = ((m.leaf b).attr : Int) := hattr
    refine ⟨faithful_barePrefixRow htiles (by omega), fun c hc u hu hu' => ?_⟩
    -- The extent of the leaf is empty, and so are its records.
    obtain ⟨hfirst, hlast⟩ := @inlineResult_extent gs m src options b hm hb hleaf c hc
    omega
  · obtain ⟨hf, -, hshows⟩ := inlineResult_shows hm hb hleaf h gs options
    exact ⟨hf, hshows⟩

/-- The row of an inline leaf, a bare prefix included, shows each content character once. -/
theorem inlineRow_showsOnce (hm : m.SchemaConforms src) (hb : b < m.blockCount)
    (hinline : RenderModel.isInline (m.blockKind b) = true) (h : m.InlineConforms src b)
    (gs : Graphemes) (options : ProjectionOptions) (shells : List Shell) (cell : CellFields) :
    (inlineRow gs m src options b (m.leaf b) shells cell).ShowsOnce src (m.contentOf b)
      (m.runsOf b) := by
  obtain ⟨hf, hshows⟩ := inlineRow_faithful hm hb hinline h gs options shells cell
  exact ⟨hf.tiles, hf.forward, hf.ordered, hf.exact,
    fun c hc u hu hu' => hf.once (hshows c hc u hu hu')⟩

/-- A model of a paragraph of two lines: an emphasized letter, a line break and a letter. -/
def emphasized : RenderModel where
  bytes := []
  words :=
    [0x354B4C46, 5, 5, 5, 2, 2, 2, 4, 0, 0, 0, 0] ++ [0, 4] ++
    [0, 0xFFFFFFFF, 0, 5, 0, 2, 0, 0, 0, 0xFFFFFFFF] ++
    [1, 0, 0, 5, 0, 2, 0, 0, 0, 0xFFFFFFFF] ++
    [0, 3, 0, 0] ++ [4, 5, 4, 1] ++
    [0, 3, 0x10001, 2] ++ [1, 2, 0, 0x10001] ++ [3, 4, 1, 12] ++ [4, 5, 0, 1]

/-- The model of an emphasis conforms to the schema. -/
theorem emphasized_schemaConforms : emphasized.SchemaConforms (Text.ofString "*a*\nb") where
  table := ⟨by decide, by decide⟩
  leaf := by decide
  parent := by decide
  blockStart := by decide
  contentLine := by decide
  lineOrder := by decide
  afterDefinitions := by decide
  runOrder := by decide
  runRange := by decide

/-- The emphasis is in its leaf. -/
theorem emphasized_inlineConforms :
    emphasized.InlineConforms (Text.ofString "*a*\nb") 1 where
  range := by decide
  order := by decide
  breakChild := by decide
  breakEnd := by decide
  breakContent := by decide
  breakStart := by decide

/-- The two letters are shown with the break between them, and each stands for itself. -/
theorem inlineRow_showsOnce_emphasized :
    (inlineRow .units emphasized (Text.ofString "*a*\nb") {} 1 (emphasized.leaf 1) [] {}).text =
        Text.ofString "a\nb" ∧
      (inlineRow .units emphasized (Text.ofString "*a*\nb") {} 1 (emphasized.leaf 1) [] {}).ShowsOnce
        (Text.ofString "*a*\nb") (emphasized.contentOf 1) (emphasized.runsOf 1) :=
  ⟨by decide,
    inlineRow_showsOnce emphasized_schemaConforms (by decide) (by decide)
      emphasized_inlineConforms .units {} [] {}⟩

end

end Flark
