import Flark.Parse.RenderModel
import Mathlib.Data.List.Sort

/-!
# Lines of a source

The line table that the native side computes (`LineIndex::new`), on code units: a line ends
after `\n`, `\r\n` or a bare `\r`. `HasLineTable` says that a model carries the table of its
source.

* `mem_lineStarts`: the entries of the table are the positions behind a line ending, and
  the start;
* `SameLines.lineBound_eq`: two sources with a stretch in common have the same line starts
  there, relative to where the stretch begins, as far as it goes;
* `lineOfUtf16_eq_iff`: the line that a model finds for an offset.
-/

namespace Flark

/-- A line ends between `u` and what follows it. -/
def EndsLine (u : UInt16) (next : Option UInt16) : Prop :=
  u = 0x0A ∨ u = 0x0D ∧ next ≠ some 0x0A

instance (u : UInt16) (next : Option UInt16) : Decidable (EndsLine u next) :=
  inferInstanceAs (Decidable (_ ∨ _))

/-- The starts of the lines that begin after `pos`, in a text whose rest begins at `pos`. -/
def lineStartsFrom : (pos : Nat) → Text → List Nat
  | _, [] => []
  | pos, u :: rest =>
    if EndsLine u rest.head? then (pos + 1) :: lineStartsFrom (pos + 1) rest
    else lineStartsFrom (pos + 1) rest

/-- The line table of a source. -/
def lineStarts (src : Text) : List Nat := 0 :: lineStartsFrom 0 src

/-- A position behind a line ending. -/
def IsLineStart (src : Text) (p : Nat) : Prop :=
  ∃ i u, p = i + 1 ∧ src[i]? = some u ∧ EndsLine u src[i + 1]?

/-- The lines that are counted start behind the breaks. -/
theorem mem_lineStartsFrom {pos p : Nat} {t : Text} :
    p ∈ lineStartsFrom pos t ↔ ∃ q, p = pos + q ∧ IsLineStart t q := by
  induction t generalizing pos with
  | nil =>
    refine ⟨fun h => absurd h List.not_mem_nil, ?_⟩
    rintro ⟨_, _, i, u, _, hu, _⟩
    simp at hu
  | cons v rest ih =>
    -- The lines that start further on are those of the rest.
    have hrec : p ∈ lineStartsFrom (pos + 1) rest ↔
        ∃ q, p = pos + q ∧ 1 < q ∧ IsLineStart (v :: rest) q := by
      rw [ih]
      constructor
      · rintro ⟨_, rfl, i, u, rfl, hu, he⟩
        exact ⟨i + 2, by omega, by omega, i + 1, u, rfl, by simpa using hu, by simpa using he⟩
      · rintro ⟨_, rfl, hq, i, u, rfl, hu, he⟩
        obtain ⟨j, rfl⟩ := Nat.exists_eq_succ_of_ne_zero (by omega : i ≠ 0)
        exact ⟨j + 1, by omega, j, u, rfl, by simpa using hu, by simpa using he⟩
    rw [lineStartsFrom]
    split
    · next h =>
      rw [List.mem_cons, hrec]
      constructor
      · rintro (rfl | ⟨q, hq, _, hs⟩)
        · exact ⟨1, rfl, 0, v, rfl, rfl, by simpa [List.head?_eq_getElem?] using h⟩
        · exact ⟨q, hq, hs⟩
      · rintro ⟨q, rfl, hs⟩
        obtain ⟨i, u, hqi, hu, he⟩ := id hs
        rcases Nat.eq_zero_or_pos i with rfl | hi
        · exact Or.inl (by omega)
        · exact Or.inr ⟨q, rfl, by omega, hs⟩
    · next h =>
      rw [hrec]
      refine ⟨fun ⟨q, hq, _, hs⟩ => ⟨q, hq, hs⟩, ?_⟩
      rintro ⟨q, rfl, hs⟩
      obtain ⟨i, u, hqi, hu, he⟩ := id hs
      rcases Nat.eq_zero_or_pos i with rfl | hi
      · obtain rfl : v = u := by simpa using hu
        exact absurd (by simpa [List.head?_eq_getElem?] using he) h
      · exact ⟨q, rfl, by omega, hs⟩

theorem mem_lineStarts {src : Text} {p : Nat} :
    p ∈ lineStarts src ↔ p = 0 ∨ IsLineStart src p := by
  rw [lineStarts, List.mem_cons, mem_lineStartsFrom]
  simp

theorem IsLineStart.le_length {src : Text} {p : Nat} (h : IsLineStart src p) :
    p ≤ src.length := by
  obtain ⟨i, u, rfl, hu, _⟩ := h
  exact (List.getElem?_eq_some_iff.1 hu).1

/-- Lines are counted in their order. -/
theorem lineStartsFrom_pairwise (pos : Nat) (t : Text) :
    (lineStartsFrom pos t).Pairwise (· < ·) := by
  induction t generalizing pos with
  | nil => exact List.Pairwise.nil
  | cons u rest ih =>
    rw [lineStartsFrom]
    split
    · refine List.pairwise_cons.2 ⟨fun p hp => ?_, ih _⟩
      obtain ⟨q, rfl, i, _, rfl, _⟩ := mem_lineStartsFrom.1 hp
      omega
    · exact ih _

theorem lineStarts_pairwise (src : Text) : (lineStarts src).Pairwise (· < ·) := by
  refine List.pairwise_cons.2 ⟨fun p hp => ?_, lineStartsFrom_pairwise _ _⟩
  obtain ⟨q, rfl, i, _, rfl, _⟩ := mem_lineStartsFrom.1 hp
  omega

/-- The lines of two texts that stand one behind the other, with no line ending that goes from one to
    the other. -/
theorem lineStartsFrom_append {pos : Nat} {s t : Text} (h : t.head? ≠ some 0x0A) :
    lineStartsFrom pos (s ++ t) = lineStartsFrom pos s ++ lineStartsFrom (pos + s.length) t := by
  induction s generalizing pos with
  | nil => rfl
  | cons u s ih =>
    have hends : EndsLine u (s ++ t).head? ↔ EndsLine u s.head? := by
      cases s with
      | nil => exact or_congr_right (and_congr_right fun _ => iff_of_true h (by decide))
      | cons v s => rfl
    have hpos : pos + (u :: s).length = pos + 1 + s.length := by
      rw [List.length_cons]
      omega
    rw [List.cons_append, lineStartsFrom, lineStartsFrom, if_congr hends rfl rfl, ih, hpos]
    split_ifs <;> rfl

/-- No line starts within a text without line endings. -/
theorem lineStartsFrom_plain {pos : Nat} {s : Text} (h : ∀ u ∈ s, u ≠ 0x0A ∧ u ≠ 0x0D) :
    lineStartsFrom pos s = [] := by
  induction s generalizing pos with
  | nil => rfl
  | cons u s ih =>
    obtain ⟨hu, hs⟩ := List.forall_mem_cons.1 h
    rw [lineStartsFrom, if_neg fun he => he.elim hu.1 fun he => hu.2 he.1, ih hs]

theorem lineStartsFrom_shift {pos pos' : Nat} {shift : Int} {s : Text}
    (h : (pos' : Int) = pos + shift) :
    (lineStartsFrom pos' s).map (Nat.cast : Nat → Int) =
      (lineStartsFrom pos s).map fun p : Nat => p + shift := by
  induction s generalizing pos pos' with
  | nil => rfl
  | cons u s ih =>
    have hrec := @ih (pos + 1) (pos' + 1) (by omega)
    rw [lineStartsFrom, lineStartsFrom]
    split_ifs
    · rw [List.map_cons, List.map_cons, hrec]
      congr 1
      omega
    · exact hrec

/-- The number of lines. -/
def lineTotal (src : Text) : Nat := (lineStarts src).length

/-- Where line `l` starts; the end of the source past the last line. -/
def lineBound (src : Text) (l : Nat) : Nat := (lineStarts src).getD l src.length

theorem lineTotal_pos (src : Text) : 0 < lineTotal src := Nat.succ_pos _

theorem lineBound_of_lt {src : Text} {l : Nat} (h : l < lineTotal src) :
    lineBound src l = (lineStarts src).get ⟨l, h⟩ := List.getD_eq_getElem _ _ h

theorem lineBound_of_le {src : Text} {l : Nat} (h : lineTotal src ≤ l) :
    lineBound src l = src.length := List.getD_eq_default _ _ h

theorem lineBound_mem {src : Text} {l : Nat} (h : l < lineTotal src) :
    lineBound src l ∈ lineStarts src := by
  rw [lineBound_of_lt h]
  exact List.getElem_mem h

theorem lineBound_le_length (src : Text) (l : Nat) : lineBound src l ≤ src.length := by
  rcases Nat.lt_or_ge l (lineTotal src) with h | h
  · rcases mem_lineStarts.1 (lineBound_mem h) with h0 | hs
    · omega
    · exact hs.le_length
  · exact (lineBound_of_le h).le

/-- Lines start one behind the other. -/
theorem lineBound_lt {src : Text} {i j : Nat} (hij : i < j) (hj : j < lineTotal src) :
    lineBound src i < lineBound src j := by
  rw [lineBound_of_lt hj, lineBound_of_lt (hij.trans hj)]
  exact List.pairwise_iff_getElem.1 (lineStarts_pairwise src) i j _ _ hij

theorem lineBound_mono {src : Text} {i j : Nat} (hij : i ≤ j) :
    lineBound src i ≤ lineBound src j := by
  rcases Nat.lt_or_ge j (lineTotal src) with h | h
  · rcases hij.eq_or_lt with rfl | hlt
    · exact le_rfl
    · exact (lineBound_lt hlt h).le
  · exact (lineBound_of_le h).symm ▸ lineBound_le_length src i

theorem lineBound_zero (src : Text) : lineBound src 0 = 0 := rfl

theorem isLineStart_lineBound {src : Text} {l : Nat} (hl : 0 < l) (h : l < lineTotal src) :
    IsLineStart src (lineBound src l) :=
  (mem_lineStarts.1 (lineBound_mem h)).resolve_left fun h0 => by
    have := lineBound_lt hl h
    omega

/-- No line starts between the starts of two neighbouring lines. -/
theorem lineBound_succ_le {src : Text} {l p : Nat} (hp : IsLineStart src p)
    (h : lineBound src l < p) : l + 1 < lineTotal src ∧ lineBound src (l + 1) ≤ p := by
  obtain ⟨j, hj, hget⟩ := List.getElem_of_mem (mem_lineStarts.2 (Or.inr hp))
  have hbound : lineBound src j = p := (lineBound_of_lt hj).trans hget
  rw [← hbound] at h ⊢
  have hlj : l < j := by
    by_contra hle
    exact absurd (lineBound_mono (Nat.le_of_not_lt hle)) (Nat.not_le.2 h)
  exact ⟨by unfold lineTotal; omega, lineBound_mono hlj⟩

/-! ## A stretch that two sources share -/

/-- The `len` units of `src` from `lo` are those of `src'` from `lo'`. -/
structure SameWindow (src : Text) (lo : Nat) (src' : Text) (lo' len : Nat) : Prop where
  le : lo + len ≤ src.length
  le' : lo' + len ≤ src'.length
  same : ∀ i < len, src[lo + i]? = src'[lo' + i]?

namespace SameWindow

variable {src src' : Text} {lo lo' len : Nat}

theorem symm (w : SameWindow src lo src' lo' len) : SameWindow src' lo' src lo len :=
  ⟨w.le', w.le, fun i hi => (w.same i hi).symm⟩

/-- A line start strictly inside a shared stretch is one in both sources. -/
theorem isLineStart (w : SameWindow src lo src' lo' len) {i : Nat} (hi : 0 < i) (hlt : i < len)
    (h : IsLineStart src (lo + i)) : IsLineStart src' (lo' + i) := by
  obtain ⟨j, u, hj, hu, he⟩ := h
  obtain ⟨k, rfl⟩ := Nat.exists_eq_succ_of_ne_zero hi.ne'
  obtain rfl : j = lo + k := by omega
  refine ⟨lo' + k, u, rfl, ?_, ?_⟩
  · rw [← w.same k (by omega), hu]
  · rw [Nat.add_assoc, ← w.same (k + 1) hlt, ← Nat.add_assoc]
    exact he

/-- A stretch of a shared stretch is shared. -/
theorem sub (w : SameWindow src lo src' lo' len) {a n : Nat} (h : a + n ≤ len) :
    SameWindow src (lo + a) src' (lo' + a) n := by
  refine ⟨by have := w.le; omega, by have := w.le'; omega, fun i hi => ?_⟩
  rw [Nat.add_assoc, Nat.add_assoc]
  exact w.same (a + i) (by omega)

/-- Windows that are the same hold the same text. -/
theorem take_drop (w : SameWindow src lo src' lo' len) :
    (src.drop lo).take len = (src'.drop lo').take len := by
  refine List.ext_getElem? fun i => ?_
  rw [List.getElem?_take, List.getElem?_take]
  split
  · next h => rw [List.getElem?_drop, List.getElem?_drop, w.same i h]
  · rfl

end SameWindow

/-- A shared stretch that begins with a line of both sources, and holds `n` lines from there. -/
structure SameLines (src : Text) (first : Nat) (src' : Text) (first' n len : Nat) : Prop where
  window : SameWindow src (lineBound src first) src' (lineBound src' first') len
  lines : first + n ≤ lineTotal src
  lines' : first' + n ≤ lineTotal src'
  stop : lineBound src (first + n) ≤ lineBound src first + len
  stop' : lineBound src' (first' + n) ≤ lineBound src' first' + len

namespace SameLines

variable {src src' : Text} {first first' n len : Nat}

theorem symm (w : SameLines src first src' first' n len) :
    SameLines src' first' src first n len :=
  ⟨w.window.symm, w.lines', w.lines, w.stop', w.stop⟩

/-- One half of `lineBound_eq`: the next line does not start earlier in one source. -/
theorem succ_le (w : SameLines src first src' first' n len) {i : Nat} (hi : i < n)
    (ih : lineBound src (first + i) - lineBound src first =
      lineBound src' (first' + i) - lineBound src' first') :
    lineBound src' (first' + (i + 1)) - lineBound src' first' ≤
      lineBound src (first + (i + 1)) - lineBound src first := by
  by_contra hlt
  rw [Nat.not_le] at hlt
  have h₁ : lineBound src' (first' + (i + 1)) ≤ lineBound src' (first' + n) :=
    lineBound_mono (by omega)
  have h₂ := w.stop'
  have h₃ := w.window.le
  have h₀ : lineBound src first ≤ lineBound src (first + i) := lineBound_mono (by omega)
  have h₀' : lineBound src' first' ≤ lineBound src' (first' + i) := lineBound_mono (by omega)
  have hex : first + (i + 1) < lineTotal src := by
    by_contra hge
    rw [Nat.not_lt] at hge
    have := lineBound_of_le hge
    omega
  have hinc := lineBound_lt (show first + i < first + (i + 1) by omega) hex
  have hs := isLineStart_lineBound (by omega) hex
  -- The start is strictly inside, so the other source has it as well.
  have hs' := w.window.isLineStart
    (i := lineBound src (first + (i + 1)) - lineBound src first) (by omega) (by omega)
    (by rwa [Nat.add_sub_cancel' (by omega)])
  have := (lineBound_succ_le (l := first' + i) hs' (by omega)).2
  rw [Nat.add_assoc] at this
  omega

/-- The lines of a shared stretch start at the same places of it. -/
theorem lineBound_eq (w : SameLines src first src' first' n len) {i : Nat} (hi : i ≤ n) :
    lineBound src (first + i) - lineBound src first =
      lineBound src' (first' + i) - lineBound src' first' := by
  induction i with
  | zero => simp
  | succ i ih =>
    have ih := ih (by omega)
    exact le_antisymm (w.symm.succ_le (by omega) ih.symm) (w.succ_le (by omega) ih)

/-- One half of `exists_iff`. -/
theorem exists_of_exists (w : SameLines src first src' first' n len) (hn : 0 < n)
    (h : first + n < lineTotal src) : first' + n < lineTotal src' := by
  by_contra hge
  rw [Nat.not_lt] at hge
  have hend := lineBound_of_le hge
  have heq := w.lineBound_eq le_rfl
  have hlt := lineBound_lt (show first + (n - 1) < first + n by omega) h
  have h₀ : lineBound src first ≤ lineBound src (first + (n - 1)) := lineBound_mono (by omega)
  have h₀' : lineBound src' first' ≤ lineBound src' (first' + n) := lineBound_mono (by omega)
  obtain ⟨j, u, hj, hu, he⟩ := isLineStart_lineBound (by omega) h
  -- The unit before the end of the other source ends a line, so one more line starts there.
  obtain ⟨k, rfl⟩ := Nat.exists_eq_add_of_le (show lineBound src first ≤ j by omega)
  have hstop := w.stop
  have hu' := (w.window.same k (by omega)).symm.trans hu
  have hlast : IsLineStart src' (lineBound src' first' + k + 1) := by
    refine ⟨_, u, rfl, hu', ?_⟩
    rw [List.getElem?_eq_none (by omega)]
    rcases he with h | h
    · exact Or.inl h
    · exact Or.inr ⟨h.1, by simp⟩
  have hprev := w.lineBound_eq (i := n - 1) (by omega)
  have h₁' : lineBound src' first' ≤ lineBound src' (first' + (n - 1)) :=
    lineBound_mono (by omega)
  have := (lineBound_succ_le (l := first' + (n - 1)) hlast (by omega)).1
  omega

/-- The line after a shared stretch of lines exists in both sources or in none. -/
theorem exists_iff (w : SameLines src first src' first' n len) (hn : 0 < n) :
    first + n < lineTotal src ↔ first' + n < lineTotal src' :=
  ⟨w.exists_of_exists hn, w.symm.exists_of_exists hn⟩

end SameLines

/-! ## The lines of a model -/

namespace RenderModel

/-- The model carries the line table of the source. -/
structure HasLineTable (m : RenderModel) (src : Text) : Prop where
  count : m.lineCount = lineTotal src
  starts : ∀ l < m.lineCount, m.lineStartUtf16 l = lineBound src l

namespace HasLineTable

variable {m : RenderModel} {src : Text}

theorem pos (h : m.HasLineTable src) : 0 < m.lineCount := h.count ▸ lineTotal_pos src

/-- The line found for an offset is the last one that starts at or before it. -/
theorem lineOfUtf16_eq_iff (h : m.HasLineTable src) {x l : Nat} :
    m.lineOfUtf16 x = l ↔
      l < m.lineCount ∧ lineBound src l ≤ x ∧ (l + 1 < m.lineCount → x < lineBound src (l + 1)) := by
  have hp : ∀ i j, 0 < i → i ≤ j → j ≤ m.lineCount - 1 →
      decide (m.lineStartUtf16 j ≤ x) = true → decide (m.lineStartUtf16 i ≤ x) = true := by
    intro i j _ hij hj hd
    have := h.pos
    rw [decide_eq_true_eq, h.starts _ (by omega)] at hd ⊢
    exact (lineBound_mono hij).trans hd
  obtain ⟨h₁, h₂, h₃⟩ := Bisect.bisectLast_spec (Nat.zero_le (m.lineCount - 1)) hp
  have hpos := h.pos
  rw [show Bisect.bisectLast (fun mid => decide (m.lineStartUtf16 mid ≤ x)) 0 (m.lineCount - 1) =
    m.lineOfUtf16 x from rfl] at h₁ h₂ h₃
  have hspec : ∀ i, i < m.lineCount → (lineBound src i ≤ x ↔ i ≤ m.lineOfUtf16 x) := by
    intro i hi
    rcases Nat.eq_zero_or_pos i with rfl | hi0
    · simp [lineBound_zero]
    · rw [← h₃ i hi0 (by omega), decide_eq_true_eq, h.starts i hi]
  constructor
  · rintro rfl
    refine ⟨by omega, (hspec _ (by omega)).2 le_rfl, fun hlt => ?_⟩
    have := mt (hspec _ hlt).1 (by omega)
    omega
  · rintro ⟨hl, hle, hlt⟩
    have hl' := (hspec l hl).1 hle
    by_contra hne
    have hlt' : l + 1 < m.lineCount := by omega
    have := (hspec (l + 1) hlt').2 (by omega)
    have := hlt hlt'
    omega

theorem lineOfUtf16_lt (h : m.HasLineTable src) (x : Nat) : m.lineOfUtf16 x < m.lineCount :=
  (h.lineOfUtf16_eq_iff.1 rfl).1

end HasLineTable

end RenderModel

end Flark
