import Flark.Kernel.Moved
import Flark.Kernel.Projection
import Flark.Parse.Lines

/-!
# Conforming models

What the schema promises of a model of a source and the projection relies on
(`RenderModel.Conforms`): the line table is that of the source, and the records of a leaf
lie inside the leaf's lines.

* `carries_of_sameLines`: two sources with a stretch of lines in common carry over whatever
  a row reads there.
-/

namespace Flark

namespace RenderModel

variable (m : RenderModel) (src : Text)

/-- The lines of a block: where the first one starts, and where the one after the last does. -/
def linesStart (b : Nat) : Nat := lineBound src (m.blockFirstLine b)
def linesEnd (b : Nat) : Nat := lineBound src (m.blockFirstLine b + m.blockLineCount b)

/-- The records of a leaf block lie inside its lines; the parent of a run is an earlier run of
    the block. -/
structure LeafConforms (b : Nat) : Prop where
  lines : m.blockFirstLine b + m.blockLineCount b ≤ m.lineCount
  start : m.linesStart src b ≤ m.blockStart b
  content : ∀ c ∈ m.contentOf b, c.Within (m.linesStart src b) (m.linesEnd src b)
  runs : ∀ r ∈ m.runsOf b, r.Within (m.linesStart src b) (m.linesEnd src b)
  parents : ∀ r ∈ m.runsOf b, ∀ p ∈ r.parent, m.firstRunOfBlock b ≤ p ∧ p < r.index

instance (b : Nat) : Decidable (m.LeafConforms src b) :=
  decidable_of_iff (m.blockFirstLine b + m.blockLineCount b ≤ m.lineCount ∧
      m.linesStart src b ≤ m.blockStart b ∧
      (∀ c ∈ m.contentOf b, c.Within (m.linesStart src b) (m.linesEnd src b)) ∧
      (∀ r ∈ m.runsOf b, r.Within (m.linesStart src b) (m.linesEnd src b)) ∧
      ∀ r ∈ m.runsOf b, ∀ p ∈ r.parent, m.firstRunOfBlock b ≤ p ∧ p < r.index)
    ⟨fun ⟨h₁, h₂, h₃, h₄, h₅⟩ => ⟨h₁, h₂, h₃, h₄, h₅⟩,
      fun ⟨h₁, h₂, h₃, h₄, h₅⟩ => ⟨h₁, h₂, h₃, h₄, h₅⟩⟩

/-- The schema's invariants that the projection relies on. -/
structure Conforms : Prop where
  table : m.HasLineTable src
  leaf : ∀ b < m.blockCount, isLeaf (m.blockKind b) → m.blockLineCount b ≠ 0 →
    m.LeafConforms src b

end RenderModel

/-! ## Line ends -/

theorem trim_window (src src' : Text) (lo lo' k : Nat)
    (h : ∀ i < k, src.codeUnitAt (lo + i : Nat) = src'.codeUnitAt (lo' + i : Nat)) :
    RenderModel.lineEndOf.trim src lo k - lo = RenderModel.lineEndOf.trim src' lo' k - lo' := by
  induction k with
  | zero => simp [RenderModel.lineEndOf.trim]
  | succ k ih =>
    rw [RenderModel.lineEndOf.trim, RenderModel.lineEndOf.trim, h k (Nat.lt_succ_self k)]
    split
    · exact ih fun i hi => h i (hi.trans (Nat.lt_succ_self k))
    · omega

theorem le_trim (src : Text) (lo k : Nat) : (lo : Int) ≤ RenderModel.lineEndOf.trim src lo k := by
  induction k with
  | zero => exact le_rfl
  | succ k ih =>
    rw [RenderModel.lineEndOf.trim]
    split
    · exact ih
    · omega

theorem trim_le (src : Text) (lo k : Nat) :
    RenderModel.lineEndOf.trim src lo k ≤ (lo + k : Nat) := by
  induction k with
  | zero => exact le_rfl
  | succ k ih =>
    rw [RenderModel.lineEndOf.trim]
    split
    · omega
    · omega

namespace RenderModel.HasLineTable

variable {m : RenderModel} {src : Text}

/-- The end of a line, over the line table of the source. -/
theorem lineEndOf_eq (h : m.HasLineTable src) {l : Nat} (hl : l < m.lineCount) :
    m.lineEndOf src l =
      lineEndOf.trim src (lineBound src l) (lineBound src (l + 1) - lineBound src l) := by
  have hnext : (if l + 1 < m.lineCount then m.lineStartUtf16 (l + 1) else src.length) =
      lineBound src (l + 1) := by
    split
    · next hlt => exact h.starts _ hlt
    · next hge => exact (lineBound_of_le (h.count ▸ Nat.not_lt.1 hge)).symm
  rw [lineEndOf, Int.toNat_natCast, h.starts l hl, hnext]

theorem lineBound_le_lineEndOf (h : m.HasLineTable src) {l : Nat} (hl : l < m.lineCount) :
    (lineBound src l : Int) ≤ m.lineEndOf src l := by
  rw [h.lineEndOf_eq hl]
  exact le_trim _ _ _

theorem lineEndOf_le_lineBound (h : m.HasLineTable src) {l : Nat} (hl : l < m.lineCount) :
    m.lineEndOf src l ≤ lineBound src (l + 1) := by
  rw [h.lineEndOf_eq hl]
  have := trim_le src (lineBound src l) (lineBound src (l + 1) - lineBound src l)
  have : lineBound src l ≤ lineBound src (l + 1) := lineBound_mono (by omega)
  omega

/-- From the start of a line on, offsets are on that line or a later one, -/
theorem le_lineOfUtf16 (h : m.HasLineTable src) {l x : Nat} (hl : l < m.lineCount)
    (hx : lineBound src l ≤ x) : l ≤ m.lineOfUtf16 x := by
  obtain ⟨-, -, hnext⟩ := h.lineOfUtf16_eq_iff.1 (rfl : m.lineOfUtf16 x = _)
  by_contra hlt
  have hmono : lineBound src (m.lineOfUtf16 x + 1) ≤ lineBound src l := lineBound_mono (by omega)
  have := hnext (by omega)
  omega

/-- and up to it on that line or an earlier one. -/
theorem lineOfUtf16_le (h : m.HasLineTable src) {l x : Nat} (hx : x ≤ lineBound src l) :
    m.lineOfUtf16 x ≤ l := by
  obtain ⟨hl, hle, -⟩ := h.lineOfUtf16_eq_iff.1 (rfl : m.lineOfUtf16 x = _)
  by_contra hlt
  have : lineBound src l < lineBound src (m.lineOfUtf16 x) :=
    lineBound_lt (by omega) (by rw [← h.count]; exact hl)
  omega

end RenderModel.HasLineTable

/-! ## A shared stretch of lines -/

theorem SameWindow.substring {src src' : Text} {lo lo' len : Nat}
    (w : SameWindow src lo src' lo' len) {a b : Int} (ha : (lo : Int) ≤ a)
    (hb : b ≤ (lo + len : Nat)) :
    src'.substring (a + ((lo' : Int) - lo)) (b + ((lo' : Int) - lo)) = src.substring a b := by
  have hlen : b + ((lo' : Int) - lo) - (a + ((lo' : Int) - lo)) = b - a := by omega
  rw [Text.substring, Text.substring, hlen]
  rcases Int.lt_or_le a b with hab | hab
  · obtain ⟨i, rfl⟩ := Int.eq_ofNat_of_zero_le (show 0 ≤ a by omega)
    obtain ⟨j, rfl⟩ := Nat.exists_eq_add_of_le (show lo ≤ i by omega)
    have hw := w.sub (a := j) (n := (b - ((lo + j : Nat) : Int)).toNat) (by omega)
    have hi : (((lo + j : Nat) : Int) + ((lo' : Int) - lo)).toNat = lo' + j := by omega
    rw [Int.toNat_natCast, hi]
    exact hw.symm.take_drop
  · rw [Int.toNat_of_nonpos (show b - a ≤ 0 by omega), List.take_zero, List.take_zero]

theorem SameWindow.codeUnitAt {src src' : Text} {lo lo' len : Nat}
    (w : SameWindow src lo src' lo' len) {i : Nat} (hi : i < len) :
    src.codeUnitAt (lo + i : Nat) = src'.codeUnitAt (lo' + i : Nat) := by
  rw [Text.codeUnitAt, Text.codeUnitAt, Int.toNat_natCast, Int.toNat_natCast,
    List.getD_eq_getElem?_getD, List.getD_eq_getElem?_getD, w.same i hi]

namespace SameLines

variable {m m' : RenderModel} {src src' : Text} {first first' n len : Nat}

/-- The lines of the two windows start at the same distances. -/
theorem lineBound_sub_eq (w : SameLines src first src' first' n len) {i : Nat} (hi : i ≤ n) :
    (lineBound src' (first' + i) : Int) - lineBound src' first' =
      lineBound src (first + i) - lineBound src first := by
  have h := w.lineBound_eq hi
  have h₁ : lineBound src first ≤ lineBound src (first + i) := lineBound_mono (by omega)
  have h₂ : lineBound src' first' ≤ lineBound src' (first' + i) := lineBound_mono (by omega)
  omega

/-- A place of the one window is on the same line as that of the other. -/
theorem lineOfUtf16_eq (w : SameLines src first src' first' n len) (hm : m.HasLineTable src)
    (hm' : m'.HasLineTable src') (hn : 0 < n) {x i : Nat} (hx : m.lineOfUtf16 x = first + i)
    (hin : i ≤ n) (hle : x ≤ lineBound src (first + n)) :
    m'.lineOfUtf16 ((x : Int) + ((lineBound src' first' : Int) - lineBound src first)).toNat =
      first' + i := by
  have hlines := w.lines
  have hlines' := w.lines'
  obtain ⟨hl, hstart, hnext⟩ := hm.lineOfUtf16_eq_iff.1 hx
  have hi := w.lineBound_sub_eq hin
  refine hm'.lineOfUtf16_eq_iff.2 ⟨?_, by omega, fun hlt => ?_⟩
  · rcases Nat.lt_or_ge i n with hin | hin
    · rw [hm'.count]
      omega
    · obtain rfl : i = n := by omega
      rw [hm'.count]
      exact (w.exists_iff hn).1 (hm.count ▸ hl)
  · rw [hm'.count] at hlt
    rcases Nat.lt_or_ge i n with hin | hin
    · have hi₁ := w.lineBound_sub_eq (show i + 1 ≤ n from hin)
      have hex : first + i + 1 < m.lineCount := by
        rw [hm.count]
        rcases Nat.lt_or_ge (i + 1) n with hin' | hin'
        · omega
        · obtain rfl : n = i + 1 := by omega
          exact (w.exists_iff hn).2 (by omega)
      have := hnext hex
      rw [← Nat.add_assoc, ← Nat.add_assoc] at hi₁
      omega
    · -- The end of the shared lines is where the line after them starts.
      obtain rfl : i = n := by omega
      have : lineBound src' (first' + i) < lineBound src' (first' + i + 1) :=
        lineBound_lt (by omega) hlt
      omega

/-- The lines of the two windows end at the same distances. -/
theorem lineEndOf_eq (w : SameLines src first src' first' n len) (hm : m.HasLineTable src)
    (hm' : m'.HasLineTable src') {i : Nat} (hi : i < n) :
    m'.lineEndOf src' (first' + i : Nat) =
      m.lineEndOf src (first + i : Nat) + ((lineBound src' first' : Int) - lineBound src first) := by
  have hlines := w.lines
  have hlines' := w.lines'
  have hstop := w.stop
  rw [hm.lineEndOf_eq (by rw [hm.count]; omega), hm'.lineEndOf_eq (by rw [hm'.count]; omega)]
  have h₀ := w.lineBound_sub_eq hi.le
  have h₁ := w.lineBound_sub_eq (show i + 1 ≤ n from hi)
  have hle : lineBound src first ≤ lineBound src (first + i) := lineBound_mono (by omega)
  have hle' : lineBound src' first' ≤ lineBound src' (first' + i) := lineBound_mono (by omega)
  have h₂ : lineBound src (first + i) ≤ lineBound src (first + i + 1) := lineBound_mono (by omega)
  have h₃ : lineBound src' (first' + i) ≤ lineBound src' (first' + i + 1) :=
    lineBound_mono (by omega)
  have h₄ : lineBound src (first + i + 1) ≤ lineBound src (first + n) := lineBound_mono (by omega)
  rw [← Nat.add_assoc, ← Nat.add_assoc] at h₁
  have hsize : lineBound src' (first' + i + 1) - lineBound src' (first' + i) =
      lineBound src (first + i + 1) - lineBound src (first + i) := by omega
  rw [hsize]
  -- What a line ends in is read back from its own units, which are the same.
  have htrim := trim_window src src' (lineBound src (first + i)) (lineBound src' (first' + i))
    (lineBound src (first + i + 1) - lineBound src (first + i)) fun j hj => by
      obtain ⟨a, ha⟩ := Nat.exists_eq_add_of_le hle
      obtain ⟨a', ha'⟩ := Nat.exists_eq_add_of_le hle'
      obtain rfl : a' = a := by omega
      rw [ha, ha', Nat.add_assoc, Nat.add_assoc]
      exact w.window.codeUnitAt (by omega)
  omega

end SameLines

theorem carries_of_sameLines {m m' : RenderModel} {src src' : Text} (hm : m.HasLineTable src)
    (hm' : m'.HasLineTable src') {first first' n len : Nat}
    (w : SameLines src first src' first' n len) (hn : 0 < n) (run : Int) :
    Carries m src m' src'
      ⟨(lineBound src' first' : Int) - lineBound src first, (first' : Int) - first, run⟩
      (lineBound src first) (lineBound src (first + n)) first n := by
  -- Only the line behind the windows is looked for on its own: it follows in both sources, or in
  -- none.
  have hlines := w.lines
  have hlines' := w.lines'
  have hstop := w.stop
  have hcount := hm.count
  have hcount' := hm'.count
  refine
    { lo_nonneg := by omega
      lo_nonneg' := by dsimp only; omega
      first_nonneg := by omega
      first_nonneg' := by dsimp only; omega
      substring := fun a b ha hb => w.window.substring ha (by omega)
      codeUnitAt := fun i hi hi' => ?_
      lineAt := fun x hx hx' => ?_
      first_le_lineAt := fun x hx hx' => ?_
      lineAt_le := fun x hx hx' => ?_
      lineEnd := fun l hl hl' => ?_
      lo_le_lineEnd := fun l hl hl' => ?_
      lines := by omega
      lines' := by dsimp only; omega }
  · obtain ⟨k, rfl⟩ := Int.eq_ofNat_of_zero_le (show 0 ≤ i by omega)
    obtain ⟨j, rfl⟩ := Nat.exists_eq_add_of_le (show lineBound src first ≤ k by omega)
    rw [show ((lineBound src first + j : Nat) : Int) +
      ((lineBound src' first' : Int) - lineBound src first) = (lineBound src' first' + j : Nat) by
        omega]
    exact (w.window.codeUnitAt (by omega)).symm
  · obtain ⟨k, rfl⟩ := Int.eq_ofNat_of_zero_le (show 0 ≤ x by omega)
    have hle := hm.lineOfUtf16_le (show k ≤ lineBound src (first + n) by omega)
    obtain ⟨i, hi⟩ := Nat.exists_eq_add_of_le
      (hm.le_lineOfUtf16 (show first < m.lineCount by omega) (show lineBound src first ≤ k by omega))
    have hline := w.lineOfUtf16_eq hm hm' hn hi (by omega) (by omega)
    rw [RenderModel.lineAt, hline, RenderModel.lineAt, Int.toNat_natCast, hi]
    dsimp only
    omega
  · obtain ⟨k, rfl⟩ := Int.eq_ofNat_of_zero_le (show 0 ≤ x by omega)
    exact Int.ofNat_le.2 (hm.le_lineOfUtf16 (by omega) (by omega))
  · obtain ⟨k, rfl⟩ := Int.eq_ofNat_of_zero_le (show 0 ≤ x by omega)
    have := hm.lineOfUtf16_le (show k ≤ lineBound src (first + n) by omega)
    rw [RenderModel.lineAt, Int.toNat_natCast]
    omega
  · obtain ⟨k, rfl⟩ := Int.eq_ofNat_of_zero_le (show 0 ≤ l by omega)
    obtain ⟨i, rfl⟩ := Nat.exists_eq_add_of_le (show first ≤ k by omega)
    rw [show ((first + i : Nat) : Int) + ((first' : Int) - first) = (first' + i : Nat) by omega]
    exact w.lineEndOf_eq hm hm' (by omega)
  · obtain ⟨k, rfl⟩ := Int.eq_ofNat_of_zero_le (show 0 ≤ l by omega)
    have h₁ : lineBound src first ≤ lineBound src k := lineBound_mono (by omega)
    have := hm.lineBound_le_lineEndOf (l := k) (by omega)
    omega

end Flark
