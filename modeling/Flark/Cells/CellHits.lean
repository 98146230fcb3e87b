import Flark.Cells.Wrapping
import Mathlib.Order.Monotone.Basic

/-!
# Cells and offsets

The two ways between the cells of a line and the offsets of its text, `hit` and `columnAt` of
`CellLine` in `flark_fleury/cell_layout.dart`, and the search for the line of an offset in
`positionFor`.

* `CellFragment.hit_columnAt`: the column of an offset hits it;
* `CellFragment.hit_mono`, `CellFragment.hitIn_bounds`, `CellFragment.hit_edge`: every column of a
  line hits an edge of a glyph, the further right the later;
* `CellFragment.search_spec`: the line that the search stops at.
-/

namespace Flark

/-- `CellOffset` of the terminal. -/
structure CellOffset where
  col : Int
  row : Nat
  deriving DecidableEq, Repr

namespace CellFragment

variable {CellStyle : Type}

/-- The loop of `hit`: the offset that a column hits, and whether before a glyph's middle. -/
def hitIn (col : Int) : List (CellGlyph CellStyle) → Option (Nat × Bool)
  | [] => none
  | g :: glyphs =>
    if col < g.col then some (g.start, true)
    else if col < g.col + g.width then
      let leading := decide ((col - g.col) * 2 < g.width)
      some (if leading then g.start else g.stop, leading)
    else hitIn col glyphs

/-- Of a table cell. -/
def inTable (line : CellFragment CellStyle) : Bool := line.row.any fun row => row.kind == .tableCell

/-- Where the glyphs of a line end. A table cell ends before its padding. -/
def hitEnd (line : CellFragment CellStyle) : Nat :=
  if line.inTable then (line.glyphs.getLast?.map CellGlyph.stop).getD line.start else line.stop

/-- `hit`. -/
def hit (line : CellFragment CellStyle) (col : Int) : Nat × Bool :=
  (hitIn col line.glyphs).getD (line.hitEnd, false)

/-- The loop of `columnAt`. -/
def columnIn (offset : Int) : List (CellGlyph CellStyle) → Option Int
  | [] => none
  | g :: glyphs => if offset < g.stop then some g.col else columnIn offset glyphs

/-- `columnAt`. -/
def columnAt (line : CellFragment CellStyle) (offset : Int) : Int :=
  (columnIn offset line.glyphs).getD line.endColumn

/-- The loop of `positionFor` over the candidates, given the offset on each of them. -/
def search (lineEnd : Bool) (offset : CellFragment CellStyle → Int) (result : CellOffset) :
    List (Nat × CellFragment CellStyle) → CellOffset
  | [] => result
  | (y, line) :: candidates =>
    if offset line < line.start then result
    else if offset line < line.stop ∨ lineEnd ∧ offset line = line.stop then
      ⟨line.columnAt (offset line), y⟩
    else search lineEnd offset ⟨line.columnAt (offset line), y⟩ candidates

theorem search_congr {lineEnd : Bool} {offset offset' : CellFragment CellStyle → Int}
    {cs : List (Nat × CellFragment CellStyle)} {result : CellOffset}
    (h : ∀ c ∈ cs, offset c.2 = offset' c.2) :
    search lineEnd offset result cs = search lineEnd offset' result cs := by
  induction cs generalizing result with
  | nil => rfl
  | cons c cs ih =>
    rw [search, search, h c List.mem_cons_self, ih fun c' hc' => h c' (List.mem_cons_of_mem c hc')]

/-! ## A line -/

section

variable {glyphs : List (CellGlyph CellStyle)} {a m d : Nat} {x e : Int}

/-- The column of an offset that is strictly in no glyph, and what it hits. -/
theorem columnIn_of_lt (hoffsets : Tiling.Tiles CellGlyph.start CellGlyph.stop a glyphs m)
    (hcolumns : Tiling.Tiles CellGlyph.col CellGlyph.endCol x glyphs e) (ha : a ≤ d) (hm : d < m)
    (hclear : ∀ g ∈ glyphs, ¬(g.start < d ∧ d < g.stop)) :
    ∃ y leading, columnIn d glyphs = some y ∧ x ≤ y ∧ hitIn y glyphs = some (d, leading) := by
  induction glyphs generalizing a x with
  | nil =>
    rw [Tiling.Tiles] at hoffsets
    omega
  | cons g glyphs ih =>
    obtain ⟨hstart, hlt, hoffsets⟩ := hoffsets
    obtain ⟨hcol, hwidth, hcolumns⟩ := hcolumns
    have hclear' := hclear g List.mem_cons_self
    rw [CellGlyph.endCol] at hwidth hcolumns
    by_cases hd : d < g.stop
    · have hstart' : g.start = d := by omega
      refine ⟨g.col, true, by rw [columnIn, if_pos (Int.ofNat_lt.2 hd)], hcol.ge, ?_⟩
      have hleading : (g.col - g.col) * 2 < g.width := by omega
      rw [hitIn, if_neg (lt_irrefl _), if_pos (by omega), decide_eq_true hleading, hstart']
      rfl
    · obtain ⟨y, leading, hy, hle, hhit⟩ := ih hoffsets hcolumns (not_lt.1 hd) fun g' hg' =>
        hclear g' (List.mem_cons_of_mem g hg')
      refine ⟨y, leading, ?_, by omega, ?_⟩
      · rw [columnIn, if_neg (by omega), hy]
      · rw [hitIn, if_neg (by omega), if_neg (by omega), hhit]

theorem columnIn_end (hoffsets : Tiling.Tiles CellGlyph.start CellGlyph.stop a glyphs m) :
    columnIn m glyphs = none := by
  induction glyphs generalizing a with
  | nil => rfl
  | cons g glyphs ih =>
    have hle := hoffsets.2.2.le
    rw [columnIn, if_neg (by omega), ih hoffsets.2.2]

theorem hitIn_end (hcolumns : Tiling.Tiles CellGlyph.col CellGlyph.endCol x glyphs e) :
    hitIn e glyphs = none := by
  induction glyphs generalizing x with
  | nil => rfl
  | cons g glyphs ih =>
    obtain ⟨hcol, hlt, hrest⟩ := hcolumns
    have hle := hrest.le
    rw [CellGlyph.endCol] at hlt hle
    rw [hitIn, if_neg (by omega), if_neg (by omega), ih hrest]

/-- What a column hits of glyphs is not before them, and at an edge of one. -/
theorem hitIn_bounds (hoffsets : Tiling.Tiles CellGlyph.start CellGlyph.stop a glyphs m) {col : Int}
    {hit : Nat × Bool} (h : hitIn col glyphs = some hit) :
    a ≤ hit.1 ∧ hit.1 ≤ m ∧ ∃ g ∈ glyphs, hit.1 = g.start ∨ hit.1 = g.stop := by
  induction glyphs generalizing a with
  | nil => cases h
  | cons g glyphs ih =>
    obtain ⟨hstart, hlt, hrest⟩ := hoffsets
    have hle := hrest.le
    rw [hitIn] at h
    split_ifs at h with hbefore hin
    · rw [← Option.some_inj.1 h]
      exact ⟨hstart.ge, by dsimp only; omega, g, List.mem_cons_self, .inl rfl⟩
    · rw [← Option.some_inj.1 h]
      dsimp only
      split_ifs
      · exact ⟨hstart.ge, by omega, g, List.mem_cons_self, .inl rfl⟩
      · exact ⟨by omega, hle, g, List.mem_cons_self, .inr rfl⟩
    · obtain ⟨h₁, h₂, g', hg', hedge⟩ := ih hrest h
      exact ⟨by omega, h₂, g', List.mem_cons_of_mem g hg', hedge⟩

theorem hitIn_getD {g : CellGlyph CellStyle} {col : Int} {stop : Nat} :
    ((hitIn col (g :: glyphs)).getD (stop, false)).1 =
      if col < g.col then g.start
      else if col < g.col + g.width then (if (col - g.col) * 2 < g.width then g.start else g.stop)
      else ((hitIn col glyphs).getD (stop, false)).1 := by
  rw [hitIn]
  split_ifs <;> simp_all

/-- The further right a column, the later what it hits. -/
theorem hitIn_mono (hoffsets : Tiling.Tiles CellGlyph.start CellGlyph.stop a glyphs m)
    {stop : Nat} (hstop : m ≤ stop) {col col' : Int} (hcol : col ≤ col') :
    ((hitIn col glyphs).getD (stop, false)).1 ≤ ((hitIn col' glyphs).getD (stop, false)).1 := by
  induction glyphs generalizing a with
  | nil => exact Nat.le_refl _
  | cons g glyphs ih =>
    obtain ⟨hstart, hlt, hrest⟩ := hoffsets
    have hle := hrest.le
    have hbehind : g.stop ≤ ((hitIn col' glyphs).getD (stop, false)).1 := by
      cases h : hitIn col' glyphs with
      | none => exact hle.trans hstop
      | some hit => exact (hitIn_bounds hrest h).1
    have hmono := ih hrest
    rw [hitIn_getD, hitIn_getD]
    split_ifs <;> omega

end

/-- The glyphs of a line lie side by side up to its end, before the padding of a table cell. -/
def Level (line : CellFragment CellStyle) : Prop :=
  ∃ stop, line.Even stop ∧ stop ≤ line.stop ∧ (!line.inTable → stop = line.stop)

variable {line : CellFragment CellStyle} {stop d : Nat}

theorem stop_cases (h : line.Even stop) :
    (line.glyphs = [] ∧ line.start = stop) ∨
      ∃ g, line.glyphs.getLast? = some g ∧ g ∈ line.glyphs ∧ g.stop = stop := by
  have hoffsets := h.offsets
  rcases List.eq_nil_or_concat line.glyphs with hnil | ⟨glyphs, g, hglyphs⟩
  · rw [hnil] at hoffsets
    exact .inl ⟨hnil, hoffsets⟩
  · rw [List.concat_eq_append] at hglyphs
    rw [hglyphs] at hoffsets ⊢
    obtain ⟨b, -, hlast⟩ := Tiling.tiles_append.1 hoffsets
    exact .inr ⟨g, List.getLast?_concat, List.mem_concat_self, hlast.2.2⟩

theorem hitEnd_eq (h : line.Even stop) (hstop : !line.inTable → stop = line.stop) :
    line.hitEnd = stop := by
  rw [hitEnd]
  split_ifs with htable
  · rcases stop_cases h with ⟨hnil, hstart⟩ | ⟨g, hlast, -, hg⟩
    · rw [hnil]
      exact hstart
    · rw [hlast]
      exact hg
  · exact (hstop (by rw [Bool.eq_false_iff.2 htable]; rfl)).symm

/-- The column of an offset hits it. -/
theorem hit_columnAt (h : line.Even stop) (hstop : !line.inTable → stop = line.stop)
    (hstart : line.start ≤ d) (hd : d ≤ stop)
    (hclear : ∀ g ∈ line.glyphs, ¬(g.start < d ∧ d < g.stop)) :
    (line.hit (line.columnAt d)).1 = d := by
  rcases Nat.lt_or_eq_of_le hd with hlt | rfl
  · obtain ⟨y, leading, hy, -, hhit⟩ := columnIn_of_lt h.offsets h.columns hstart hlt hclear
    rw [columnAt, hy, Option.getD_some, hit, hhit, Option.getD_some]
  · rw [columnAt, columnIn_end h.offsets, Option.getD_none, hit, hitIn_end h.columns,
      Option.getD_none, hitEnd_eq h hstop]

theorem hit_mono (h : line.Level) : Monotone fun col => (line.hit col).1 := by
  obtain ⟨stop, heven, -, hstop⟩ := h
  intro col col' hcol
  exact hitIn_mono heven.offsets (hitEnd_eq heven hstop).ge hcol

/-- A column hits an edge of a glyph; on a line without glyphs, its only offset. -/
theorem hit_edge (h : line.Level) (col : Int) :
    line.start ≤ (line.hit col).1 ∧ (line.hit col).1 ≤ line.stop ∧
      ((∃ g ∈ line.glyphs, (line.hit col).1 = g.start ∨ (line.hit col).1 = g.stop) ∨
        line.glyphs = [] ∧ (line.hit col).1 = line.start) := by
  obtain ⟨stop, heven, hle, hstop⟩ := h
  have hend := hitEnd_eq heven hstop
  rw [hit]
  cases hhit : hitIn col line.glyphs with
  | some hit =>
    obtain ⟨h₁, h₂, hedge⟩ := hitIn_bounds heven.offsets hhit
    exact ⟨h₁, h₂.trans hle, .inl hedge⟩
  | none =>
    rw [Option.getD_none]
    dsimp only
    rw [hend]
    refine ⟨heven.offsets.le, hle, ?_⟩
    rcases stop_cases heven with ⟨hnil, hstart⟩ | ⟨g, -, hg, hglyph⟩
    · exact .inr ⟨hnil, hstart.symm⟩
    · exact .inl ⟨g, hg, .inr hglyph.symm⟩

/-! ## The lines of a text -/

/-- A line goes on behind another one, and no earlier. -/
theorem Follows.le {painted : Text} {next : CellFragment CellStyle}
    (h : line.Follows painted next) : line.stop ≤ next.start := by
  rcases h with hbreak | hwrap
  · by_contra hlt
    have hnil : painted.substring line.stop next.start = [] := by
      rw [Text.substring, show ((next.start : Int) - line.stop).toNat = 0 by omega, List.take_zero]
    rw [hnil] at hbreak
    simp [lineBreaks] at hbreak
  · exact hwrap.1.le

theorem Follows.wrapped {painted : Text} {next : CellFragment CellStyle}
    (h : line.Follows painted next) (heq : line.stop = next.start) :
    line.glyphs ≠ [] ∧ next.glyphs ≠ [] := by
  rcases h with hbreak | hwrap
  · rw [heq, Text.substring, Int.sub_self] at hbreak
    simp [lineBreaks] at hbreak
  · exact hwrap.2

variable {painted : Text} {graphemes : List Text} {length : Nat}
  {lines : List (CellFragment CellStyle)}

theorem stop_le_start (hfollows : (line :: lines).IsChain (Follows painted))
    (hle : ∀ l ∈ lines, l.start ≤ l.stop) : ∀ l ∈ lines, line.stop ≤ l.start := by
  induction lines generalizing line with
  | nil => exact fun l hl => absurd hl List.not_mem_nil
  | cons next lines ih =>
    obtain ⟨hnext, hrest⟩ := List.isChain_cons_cons.1 hfollows
    intro l hl
    rcases List.mem_cons.1 hl with rfl | hl
    · exact hnext.le
    · have hl' := ih hrest (fun l hl => hle l (List.mem_cons_of_mem next hl)) l hl
      exact hnext.le.trans ((hle next List.mem_cons_self).trans hl')

theorem stop_le_last (hfollows : lines.IsChain (Follows painted))
    (hle : ∀ l ∈ lines, l.start ≤ l.stop)
    (hlast : lines.getLast?.map CellFragment.stop = some length) :
    ∀ l ∈ lines, l.stop ≤ length := by
  intro l hl
  obtain ⟨before, after, rfl⟩ := List.append_of_mem hl
  have hafter := stop_le_start (List.isChain_append.1 hfollows).2.1 fun l' hl' =>
    hle l' (List.mem_append_right _ (List.mem_cons_of_mem l hl'))
  rw [List.getLast?_append_of_ne_nil _ (List.cons_ne_nil l after)] at hlast
  obtain ⟨last, hfound, rfl⟩ := Option.map_eq_some_iff.1 hlast
  cases after with
  | nil => exact (congrArg CellFragment.stop (Option.some_inj.1 hfound)).le
  | cons next after =>
    rw [List.getLast?_cons_cons] at hfound
    have hmem : last ∈ next :: after := List.mem_of_getLast? hfound
    exact (hafter last hmem).trans
      (hle last (List.mem_append_right _ (List.mem_cons_of_mem l hmem)))

theorem rangesFrom_start : rangesFrom line.start (line :: lines) =
    line.glyphs.map (fun g => (g.start, g.stop)) ++ rangesFrom line.stop lines := by
  rw [rangesFrom, if_neg (Nat.lt_irrefl _), List.nil_append]

/-- The line that the search stops at has the offset; the lines before it stop before the offset,
    or there where the next line is asked for, and the lines after it start behind the offset, or
    there where the end of the line is. -/
theorem search_spec {y : Nat} {rest : List (Nat × CellFragment CellStyle)} {result : CellOffset}
    (lineEnd : Bool) (heven : ∀ c ∈ (y, line) :: rest, c.2.Even (min c.2.stop painted.length))
    (hfollows : (((y, line) :: rest).map Prod.snd).IsChain (Follows painted))
    (hclear : ∀ s ∈ rangesFrom line.start (((y, line) :: rest).map Prod.snd), ¬(s.1 < d ∧ d < s.2))
    (hstart : line.start ≤ d) (hlast : ∀ c ∈ ((y, line) :: rest).getLast?, d ≤ c.2.stop) :
    ∃ before c after, (y, line) :: rest = before ++ c :: after ∧
      search lineEnd (fun _ => d) result ((y, line) :: rest) = ⟨c.2.columnAt d, c.1⟩ ∧
      c.2.start ≤ d ∧ d ≤ c.2.stop ∧ (∀ g ∈ c.2.glyphs, ¬(g.start < d ∧ d < g.stop)) ∧
      (∀ b ∈ before, b.2.stop ≤ d ∧ (lineEnd → b.2.stop < d)) ∧
      ∀ a ∈ after, d ≤ a.2.start ∧ (!lineEnd → d < a.2.start) := by
  -- By induction on the lines behind the first. The search stops at the first line if the offset is
  -- before its end, or if the next line starts behind the offset; else it goes on, and the first
  -- line is one of those before.
  induction rest generalizing y line result with
  | nil =>
    rw [List.map_cons, rangesFrom_start] at hclear
    refine ⟨[], (y, line), [], rfl, ?_, hstart, hlast _ rfl, fun g hg => ?_, ?_, ?_⟩
    · rw [search, if_neg (by omega), search]
      split_ifs <;> rfl
    · exact hclear (g.start, g.stop) (List.mem_append_left _ (List.mem_map_of_mem hg))
    · exact fun b hb => absurd hb List.not_mem_nil
    · exact fun a ha => absurd ha List.not_mem_nil
  | cons next rest ih =>
    obtain ⟨y', next⟩ := next
    have hle : ∀ c ∈ (y', next) :: rest, c.2.start ≤ c.2.stop := fun c hc =>
      (heven c (List.mem_cons_of_mem _ hc)).offsets.le.trans (Nat.min_le_left _ _)
    have hafter : ∀ a ∈ (y', next) :: rest, line.stop ≤ a.2.start := fun a ha =>
      stop_le_start hfollows (List.forall_mem_map.2 hle) a.2 (List.mem_map_of_mem ha)
    have hnext : ∀ a ∈ rest, next.start ≤ a.2.start := fun a ha =>
      (hle _ List.mem_cons_self).trans (stop_le_start (List.isChain_cons_cons.1 hfollows).2
        (List.forall_mem_map.2 fun c hc => hle c (List.mem_cons_of_mem _ hc)) a.2
        (List.mem_map_of_mem ha))
    rw [List.map_cons, rangesFrom_start] at hclear
    have hglyphs : ∀ g ∈ line.glyphs, ¬(g.start < d ∧ d < g.stop) := fun g hg =>
      hclear (g.start, g.stop) (List.mem_append_left _ (List.mem_map_of_mem hg))
    by_cases hstop : (d : Int) < line.stop ∨ lineEnd ∧ (d : Int) = line.stop
    · refine ⟨[], (y, line), (y', next) :: rest, rfl, ?_, hstart, by dsimp only; omega, hglyphs,
        ?_, ?_⟩
      · rw [search, if_neg (by omega), if_pos hstop]
      · exact fun b hb => absurd hb List.not_mem_nil
      · intro a ha
        have := hafter a ha
        refine ⟨by omega, fun hend => ?_⟩
        rw [Bool.not_eq_true'] at hend
        simp only [hend, Bool.false_eq_true, false_and, or_false] at hstop
        omega
    · have hsearch : search lineEnd (fun _ => d) result ((y, line) :: (y', next) :: rest) =
          search lineEnd (fun _ => d) ⟨line.columnAt d, y⟩ ((y', next) :: rest) := by
        rw [search, if_neg (by omega), if_neg hstop]
      rw [hsearch]
      by_cases hbehind : d < next.start
      · have hle : d ≤ line.stop := by
          by_contra hlt
          refine hclear (line.stop, next.start) (List.mem_append_right _ ?_) ⟨by omega, hbehind⟩
          rw [List.map_cons, rangesFrom, if_pos (by dsimp only; omega)]
          exact List.mem_append_left _ (List.mem_append_left _ (List.mem_singleton_self _))
        refine ⟨[], (y, line), (y', next) :: rest, rfl, ?_, hstart, hle, hglyphs, ?_, ?_⟩
        · rw [search, if_pos (by omega)]
        · exact fun b hb => absurd hb List.not_mem_nil
        · intro a ha
          have hlt : d < a.2.start := by
            rcases List.mem_cons.1 ha with rfl | ha
            · exact hbehind
            · exact hbehind.trans_le (hnext a ha)
          exact ⟨hlt.le, fun _ => hlt⟩
      · have hclear' : ∀ s ∈ rangesFrom next.start (((y', next) :: rest).map Prod.snd),
            ¬(s.1 < d ∧ d < s.2) := fun s hs => hclear s (List.mem_append_right _ (by
          rw [List.map_cons, rangesFrom_start] at hs
          rw [List.map_cons, rangesFrom, List.append_assoc]
          exact List.mem_append_right _ hs))
        obtain ⟨before, c, after, hsplit, hfound, h₁, h₂, h₃, hbefore, hafter⟩ :=
          @ih next y' ⟨line.columnAt d, y⟩ (fun c hc => heven c (List.mem_cons_of_mem _ hc))
            (List.isChain_cons_cons.1 hfollows).2 hclear' (not_lt.1 hbehind)
            (fun c hc => hlast c (by rw [List.getLast?_cons_cons]; exact hc))
        refine ⟨(y, line) :: before, c, after, by rw [hsplit]; rfl, hfound, h₁, h₂, h₃, ?_, hafter⟩
        intro b hb
        rcases List.mem_cons.1 hb with rfl | hb
        · refine ⟨by dsimp only; omega, fun hend => ?_⟩
          simp only [hend, true_and, not_or] at hstop
          dsimp only
          omega
        · exact hbefore b hb

theorem start_lt_stop (h : line.Even (min line.stop painted.length)) (hne : line.glyphs ≠ []) :
    line.start < line.stop := by
  refine lt_of_lt_of_le (lt_of_le_of_ne h.offsets.le fun heq => hne ?_) (Nat.min_le_left _ _)
  have hoffsets := h.offsets
  rw [← heq] at hoffsets
  exact hoffsets.eq_nil

/-- The candidates of a text, for a grapheme boundary of what is painted of it: the column that is
    found on one of them hits the boundary, and where the text is wrapped there, it is the line
    that starts there, or the one that ends there if that is asked for. -/
theorem search_boundary {gs : Graphemes} {cs : List (Nat × CellFragment CellStyle)}
    (h : LaysOut painted (gs.split painted) length (cs.map Prod.snd))
    (hlength : painted.length ≤ length)
    (hwhole : ∀ c ∈ cs, !c.2.inTable → painted.length = length) (hd : d ∈ gs.boundaries painted)
    (lineEnd : Bool) (result : CellOffset) :
    ∃ c ∈ cs, search lineEnd (fun _ => d) result cs = ⟨c.2.columnAt d, c.1⟩ ∧
      (c.2.hit (c.2.columnAt d)).1 = d ∧ c.2.start ≤ d ∧ d ≤ c.2.stop ∧
      ∀ b a, [b, a] <:+: cs → b.2.stop = d → a.2.start = d → c = if lineEnd then b else a := by
  obtain ⟨heven, hfollows, hranges, hfirst, hlast⟩ := h
  rw [List.forall_mem_map] at heven
  have hle := gs.le_length_of_mem_boundaries hd
  cases cs with
  | nil => cases hfirst
  | cons first rest =>
    obtain ⟨y, line⟩ := first
    have hstart : line.start = 0 := Option.some_inj.1 hfirst
    -- No glyph is across the boundary, and the lines reach it.
    have hclear : ∀ s ∈ rangesFrom line.start (((y, line) :: rest).map Prod.snd),
        ¬(s.1 < d ∧ d < s.2) := by
      rw [hstart, hranges]
      intro s hs hin
      have hnone := (gs.rangeAt_eq_none hle).2 hd
      rw [gs.rangeAt_eq_some.2 ⟨hs, hin⟩] at hnone
      cases hnone
    have hstop : ∀ c ∈ ((y, line) :: rest).getLast?, d ≤ c.2.stop := fun c hc => by
      rw [List.getLast?_map, hc] at hlast
      exact hle.trans (hlength.trans (Option.some_inj.1 hlast).ge)
    obtain ⟨before, c, after, hsplit, hfound, h₁, h₂, hglyphs, hbefore, hafter⟩ :=
      @search_spec _ _ _ _ y rest result lineEnd heven hfollows hclear
        (hstart.le.trans (Nat.zero_le d)) hstop
    have hcases {x : Nat × CellFragment CellStyle} (hx : x ∈ (y, line) :: rest) :
        x ∈ before ∨ x = c ∨ x ∈ after := by
      rw [hsplit, List.mem_append, List.mem_cons] at hx
      exact hx
    have hc : c ∈ (y, line) :: rest := by
      rw [hsplit]
      exact List.mem_append_right _ List.mem_cons_self
    refine ⟨c, hc, hfound, ?_, h₁, h₂, fun b a hnear hb ha => ?_⟩
    · refine hit_columnAt (heven c hc) (fun htable => ?_) h₁ (Nat.le_min.2 ⟨h₂, hle⟩) hglyphs
      have hwithin := stop_le_last hfollows (List.forall_mem_map.2 fun c hc =>
        (heven c hc).offsets.le.trans (Nat.min_le_left _ _)) hlast c.2 (List.mem_map_of_mem hc)
      rw [hwhole c hc htable, Nat.min_eq_left hwithin]
    -- Where the text is wrapped, the lines around the boundary both have glyphs, and the search has
    -- chosen between them.
    · have hwrap : b.2.glyphs ≠ [] ∧ a.2.glyphs ≠ [] := by
        have hpair := List.isChain_pair.1 ( List.IsChain.infix hfollows (hnear.map Prod.snd))
        exact hpair.wrapped (hb.trans ha.symm)
      have hbmem := hnear.mem (List.mem_cons_self : b ∈ [b, a])
      have hamem := hnear.mem (List.mem_cons_of_mem b List.mem_cons_self : a ∈ [b, a])
      have hb' := start_lt_stop (heven b hbmem) hwrap.1
      have ha' := start_lt_stop (heven a hamem) hwrap.2
      cases lineEnd with
      | true =>
        rcases hcases hbmem with hmem | rfl | hmem
        · have := (hbefore b hmem).2 rfl
          omega
        · rfl
        · have := (hafter b hmem).1
          omega
      | false =>
        rcases hcases hamem with hmem | rfl | hmem
        · have := (hbefore a hmem).1
          omega
        · rfl
        · have := (hafter a hmem).2 rfl
          omega

end CellFragment

end Flark
