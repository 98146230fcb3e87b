import Flark.Kernel.Legality
import Flark.Lib.Nearest

/-!
# Onto the legal carets

`legalize` moves an offset out of the hidden syntax it is in, and then to one of the legal
offsets next to it: `Projection.settle` after `Projection.pastHidden`. Both are monotone and
keep legal offsets, so `legalize` is a closure onto the legal offsets that keeps their order
(`Document.legalize_closure`).
-/

namespace Flark

theorem RenderModel.HasLineTable.lineOfUtf16_mono {m : RenderModel} {src : Text}
    (h : m.HasLineTable src) : Monotone m.lineOfUtf16 := by
  intro x y hxy
  obtain ⟨hx, hlex, -⟩ := h.lineOfUtf16_eq_iff.1 (rfl : m.lineOfUtf16 x = _)
  obtain ⟨-, -, hnext⟩ := h.lineOfUtf16_eq_iff.1 (rfl : m.lineOfUtf16 y = _)
  by_contra hlt
  have hbound : lineBound src (m.lineOfUtf16 y + 1) ≤ lineBound src (m.lineOfUtf16 x) :=
    lineBound_mono (by omega)
  have := hnext (by omega)
  omega

theorem RenderModel.HasLineTable.lineAt_mono {m : RenderModel} {src : Text}
    (h : m.HasLineTable src) ⦃x y : Int⦄ (hxy : x ≤ y) : m.lineAt x ≤ m.lineAt y :=
  Int.ofNat_le.2 (h.lineOfUtf16_mono (Int.toNat_le_toNat hxy))

namespace Projection

/-! ## Out of hidden syntax -/

theorem le_pastHidden (hidden : List (Int × Int)) (o : Int) : o ≤ pastHidden hidden o := by
  induction hidden generalizing o with
  | nil => exact le_rfl
  | cons q hidden ih =>
    rw [pastHidden_cons]
    split
    · exact le_rfl
    · refine le_trans ?_ (ih _)
      split <;> omega

theorem pastHidden_mono (hidden : List (Int × Int)) ⦃x y : Int⦄ (hxy : x ≤ y) :
    pastHidden hidden x ≤ pastHidden hidden y := by
  induction hidden generalizing x y with
  | nil => exact hxy
  | cons q hidden ih =>
    rw [pastHidden_cons, pastHidden_cons]
    by_cases hx : x ≤ q.1
    · -- The walk from `x` ends here, and that from `y` only goes further.
      rw [if_pos hx]
      split
      · exact hxy
      · refine hxy.trans (le_trans ?_ (le_pastHidden _ _))
        split <;> omega
    · rw [if_neg hx, if_neg (show ¬y ≤ q.1 by omega)]
      refine ih ?_
      split <;> split <;> omega

/-- An offset inside no interval stays. -/
theorem pastHidden_eq_self {hidden : List (Int × Int)} {o : Int}
    (h : ¬Intervals.StrictlyInside o hidden) : pastHidden hidden o = o := by
  induction hidden with
  | nil => rfl
  | cons q hidden ih =>
    rw [pastHidden_cons]
    split
    · rfl
    · next hq =>
      have hout : ¬o < q.2 := fun hlt => h ⟨q, List.mem_cons_self, not_le.1 hq, hlt⟩
      rw [if_neg hout]
      exact ih fun ⟨q', hq', ho⟩ => h ⟨q', List.mem_cons_of_mem _ hq', ho⟩

/-! ## The nearer side -/

/-- The choice of `nearestLegal` between the legal offsets around an offset. -/
def nearer (line : Int → Int) (o : Int) (before after : Option Int) (none : Int) : Int :=
  let onLine : Option Int → Option Int := fun x => x.filter fun x => line x == line o
  match onLine after, onLine before with
  | some after, some before => if after - o < o - before then after else before
  | some after, Option.none => after
  | Option.none, some before => before
  | Option.none, Option.none => (after.or before).getD none

section

variable {line : Int → Int} {o x y a b n : Int} {before after : Option Int}

theorem nearer_after : nearer line o none (some a) n = a := by
  simp only [nearer, Option.filter_none]
  split <;> simp_all [Option.filter]

theorem nearer_before : nearer line o (some b) none n = b := by
  simp only [nearer, Option.filter_none]
  split <;> simp_all [Option.filter]

theorem nearer_between : nearer line o (some b) (some a) n =
    if line a = line o then if line b = line o then if a - o < o - b then a else b else a
    else if line b = line o then b else a := by
  simp only [nearer, Option.filter_some, beq_iff_eq]
  by_cases ha : line a = line o
  · by_cases hb : line b = line o
    · simp only [ha, hb, if_true]
    · simp only [ha, hb, if_true, if_false]
  · by_cases hb : line b = line o
    · simp only [ha, hb, if_true, if_false]
    · simp only [ha, hb, if_false, Option.some_or, Option.getD_some]

/-- The offset chosen is one of the two. -/
theorem nearer_mem (h : before ≠ none ∨ after ≠ none) :
    nearer line o before after n ∈ before ∨ nearer line o before after n ∈ after := by
  cases before with
  | none =>
    cases after with
    | none => simp at h
    | some a => exact Or.inr (congrArg some nearer_after.symm)
  | some b =>
    cases after with
    | none => exact Or.inl (congrArg some nearer_before.symm)
    | some a =>
      rw [nearer_between]
      split_ifs <;> simp

/-- Between two legal offsets, a later offset does not go to the earlier one where an earlier
    offset goes to the later one. -/
theorem nearer_mono (hline : ∀ ⦃u v : Int⦄, u ≤ v → line u ≤ line v) (hbefore : ∀ b ∈ before, b < x)
    (hafter : ∀ a ∈ after, y ≤ a) (hxy : x ≤ y) :
    nearer line x before after n ≤ nearer line y before after n := by
  cases before with
  | none =>
    cases after with
    | none => exact le_rfl
    | some a => rw [nearer_after, nearer_after]
  | some b =>
    cases after with
    | none => rw [nearer_before, nearer_before]
    | some a =>
      have hbx : b < x := hbefore b rfl
      have hya : y ≤ a := hafter a rfl
      have h₁ : line b ≤ line x := hline hbx.le
      have h₂ : line x ≤ line y := hline hxy
      have h₃ : line y ≤ line a := hline hya
      rw [nearer_between, nearer_between]
      split_ifs <;> omega

end

/-! ## Settling on a legal offset -/

section

variable (gs : Graphemes) (p : Projection)

/-- What `legalize` does with an offset that hidden syntax does not cover. -/
def settle (o : Int) : Int :=
  if p.isLegal gs o then o
  else if (p.legalOffsets gs).isEmpty then p.source.length
  else p.nearestLegal gs o

end

theorem considerAll_sublist (blocked spans : List (Int × Int)) (boundaries : List Int) :
    (considerAll blocked spans boundaries).Sublist boundaries := by
  induction boundaries generalizing blocked spans with
  | nil => exact List.Sublist.slnil
  | cons x boundaries ih =>
    rw [considerAll]
    dsimp only
    split
    · exact (ih _ _).cons x
    · split
      · exact (ih _ _).cons_cons x
      · exact (ih _ _).cons x

variable {gs : Graphemes} {p : Projection}

theorem pairwise_legalOffsets : (p.legalOffsets gs).Pairwise (· ≤ ·) := by
  refine (List.pairwise_map.2 ?_).sublist (considerAll_sublist _ _ _)
  exact (Graphemes.pairwise_ends 0 _).imp Int.ofNat_le.2

/-- The legal offsets around an offset, which `nearestLegal` chooses from. -/
theorem exists_neighbours (gs : Graphemes) (p : Projection) (o : Int) : ∃ before after,
    Nearest.Neighbours (p.legalOffsets gs) o before after ∧
      p.nearestLegal gs o = nearer p.model.lineAt o before after p.source.length :=
  ⟨_, _, Nearest.neighbours_bisect pairwise_legalOffsets o 0 rfl, rfl⟩

section

variable (h : Built gs p) (hm : p.model.SchemaConforms p.source)

include h hm

theorem isLegal_iff_mem {o : Int} : p.isLegal gs o = true ↔ o ∈ p.legalOffsets gs :=
  (caret_legality h hm o).1.trans (caret_legality h hm o).2.symm

omit h hm in
theorem settle_of_not_isLegal {o x : Int} (ho : ¬p.isLegal gs o = true) (hx : x ∈ p.legalOffsets gs) :
    p.settle gs o = p.nearestLegal gs o := by
  rw [settle, if_neg ho, if_neg]
  rw [List.isEmpty_iff]
  exact List.ne_nil_of_mem hx

/-- Where there is a legal offset, one is found. -/
theorem isLegal_settle {x : Int} (hx : p.isLegal gs x = true) (o : Int) :
    p.isLegal gs (p.settle gs o) = true := by
  by_cases ho : p.isLegal gs o = true
  · rwa [settle, if_pos ho]
  have hx := (isLegal_iff_mem h hm).1 hx
  obtain ⟨before, after, hn, hnearest⟩ := exists_neighbours gs p o
  rw [settle_of_not_isLegal ho hx, hnearest, isLegal_iff_mem h hm]
  have hsome : before ≠ none ∨ after ≠ none := by
    rcases lt_or_ge x o with hlt | hge
    · obtain ⟨b, hb, -⟩ := hn.le_before x hx hlt
      exact Or.inl (Option.ne_none_iff_exists'.2 ⟨b, hb⟩)
    · obtain ⟨a, ha, -⟩ := hn.after_le x hx hge
      exact Or.inr (Option.ne_none_iff_exists'.2 ⟨a, ha⟩)
  rcases @nearer_mem p.model.lineAt o p.source.length _ _ hsome with hb | ha
  · exact (hn.before_mem _ hb).1
  · exact (hn.after_mem _ ha).1

theorem settle_mono ⦃x y : Int⦄ (hxy : x ≤ y) : p.settle gs x ≤ p.settle gs y := by
  revert x y
  refine @Nearest.monotone_of_gaps _ _ {x | p.isLegal gs x = true} _ ?_ ?_ ?_
  · intro x y hy hxy
    by_cases hx : p.isLegal gs x = true
    · rwa [settle, if_pos hx]
    have hy := (isLegal_iff_mem h hm).1 hy
    obtain ⟨before, after, hn, hnearest⟩ := exists_neighbours gs p x
    obtain ⟨a, ha, hay⟩ := hn.after_le y hy hxy
    rw [settle_of_not_isLegal hx hy, hnearest]
    rcases @nearer_mem p.model.lineAt x p.source.length _ _
      (Or.inr (Option.ne_none_iff_exists'.2 ⟨a, ha⟩)) with hb | ha'
    · exact ((hn.before_mem _ hb).2.trans_le hxy).le
    · rwa [Option.mem_unique ha' ha]
  · intro x y hy hyx
    by_cases hx : p.isLegal gs x = true
    · rwa [settle, if_pos hx]
    have hlt : y < x := lt_of_le_of_ne hyx fun heq => hx (heq ▸ hy)
    have hy := (isLegal_iff_mem h hm).1 hy
    obtain ⟨before, after, hn, hnearest⟩ := exists_neighbours gs p x
    obtain ⟨b, hb, hyb⟩ := hn.le_before y hy hlt
    rw [settle_of_not_isLegal hx hy, hnearest]
    rcases @nearer_mem p.model.lineAt x p.source.length _ _
      (Or.inl (Option.ne_none_iff_exists'.2 ⟨b, hb⟩)) with hb' | ha
    · rwa [Option.mem_unique hb' hb]
    · exact hyx.trans (hn.after_mem _ ha).2
  · intro x y hxy hgap
    have hx : ¬p.isLegal gs x = true := fun hx => hgap x hx ⟨le_rfl, hxy⟩
    have hy : ¬p.isLegal gs y = true := fun hy => hgap y hy ⟨hxy, le_rfl⟩
    by_cases hempty : (p.legalOffsets gs).isEmpty = true
    · rw [settle, settle, if_neg hx, if_neg hy, if_pos hempty, if_pos hempty]
    obtain ⟨z, hz⟩ := List.exists_mem_of_ne_nil _ (mt List.isEmpty_iff.2 hempty)
    obtain ⟨before, after, hn, hnearest⟩ := exists_neighbours gs p x
    obtain ⟨before', after', hn', hnearest'⟩ := exists_neighbours gs p y
    -- Both offsets are between the same two legal ones.
    obtain ⟨rfl, rfl⟩ := hn.eq_of_gap hn' hxy fun w hw =>
      hgap w ((isLegal_iff_mem h hm).2 hw)
    rw [settle_of_not_isLegal hx hz, settle_of_not_isLegal hy hz, hnearest, hnearest']
    exact nearer_mono hm.table.lineAt_mono (fun b hb => (hn.before_mem b hb).2)
      (fun a ha => (hn'.after_mem a ha).2) hxy

/-! ## `legalize` -/

theorem pastHidden_of_isLegal {o : Int} (ho : p.isLegal gs o = true) :
    pastHidden p.hiddenPairs o = o := by
  refine pastHidden_eq_self fun ⟨q, hq, hlt⟩ => ?_
  obtain ⟨r, hr, rfl | rfl, -⟩ := (mem_hiddenPairs hm).1 hq
  · exact (((caret_legality h hm o).1.1 ho).delimiters r hr).1 hlt
  · exact (((caret_legality h hm o).1.1 ho).delimiters r hr).2 hlt

/-- `legalize` is three monotone steps: into the source, out of hidden syntax, onto a legal
    offset. -/
theorem legalize_eq (o : Int) : p.legalize gs o =
    p.settle gs (pastHidden p.hiddenPairs (max 0 (min o p.source.length))) := by
  rw [legalize, settle]
  dsimp only
  by_cases ho : p.isLegal gs (max 0 (min o p.source.length)) = true
  · rw [if_pos ho, pastHidden_of_isLegal h hm ho, if_pos ho]
  · rw [if_neg ho]

theorem legalize_of_isLegal {o : Int} (ho : p.isLegal gs o = true) : p.legalize gs o = o := by
  have hcaret := (caret_legality h hm o).1.1 ho
  have h₀ := hcaret.nonneg
  have h₁ := hcaret.le_length
  rw [legalize_eq h hm, show max 0 (min o (p.source.length : Int)) = o by omega,
    pastHidden_of_isLegal h hm ho, settle, if_pos ho]

theorem legalize_mono ⦃x y : Int⦄ (hxy : x ≤ y) : p.legalize gs x ≤ p.legalize gs y := by
  rw [legalize_eq h hm, legalize_eq h hm]
  refine settle_mono h hm (pastHidden_mono _ ?_)
  omega

theorem isLegal_legalize {x : Int} (hx : p.isLegal gs x = true) (o : Int) :
    p.isLegal gs (p.legalize gs o) = true := by
  rw [legalize_eq h hm]
  exact isLegal_settle h hm hx _

end

end Projection

/-! ## Live documents -/

namespace Document

/-- A live document: its rows are those of a conforming model of its source. -/
structure Live (gs : Graphemes) (d : Document) : Prop where
  built : Built gs d.projection
  conforms : d.model.SchemaConforms d.source

variable {gs : Graphemes} {d : Document}

/-- A legalised selection keeps the order of its ends. -/
theorem Live.withSelection_mono (hd : d.Live gs) (s : Selection) :
    (s.base ≤ s.extent →
      (d.withSelection gs s).selection.base ≤ (d.withSelection gs s).selection.extent) ∧
    (s.extent ≤ s.base →
      (d.withSelection gs s).selection.extent ≤ (d.withSelection gs s).selection.base) := by
  have hmono := Projection.legalize_mono hd.built hd.conforms
  rw [withSelection, legalSelection]
  dsimp only
  split
  · exact ⟨id, id⟩
  · split
    · exact ⟨id, id⟩
    · exact ⟨fun h => hmono h, fun h => hmono h⟩

/-- `legalize` is a closure onto the legal offsets: it reaches one where there is one, leaves
    them where they are, and keeps the order of offsets and so of the ends of a selection. -/
theorem legalize_closure (hd : d.Live gs) :
    (∀ o, (∃ x, d.projection.isLegal gs x = true) →
      d.projection.isLegal gs (d.projection.legalize gs o) = true) ∧
    (∀ o, d.projection.isLegal gs o = true → d.projection.legalize gs o = o) ∧
    (∀ o, d.projection.legalize gs (d.projection.legalize gs o) = d.projection.legalize gs o) ∧
    (∀ o o', o ≤ o' → d.projection.legalize gs o ≤ d.projection.legalize gs o') ∧
    ∀ s : Selection,
      (s.base ≤ s.extent →
        (d.withSelection gs s).selection.base ≤ (d.withSelection gs s).selection.extent) ∧
      (s.extent ≤ s.base →
        (d.withSelection gs s).selection.extent ≤ (d.withSelection gs s).selection.base) := by
  have hb := hd.built
  have hc := hd.conforms
  refine ⟨fun o ⟨x, hx⟩ => Projection.isLegal_legalize hb hc hx o,
    fun o => Projection.legalize_of_isLegal hb hc, fun o => ?_,
    fun o o' hle => Projection.legalize_mono hb hc hle, hd.withSelection_mono⟩
  by_cases hx : ∃ x, d.projection.isLegal gs x = true
  · obtain ⟨x, hx⟩ := hx
    exact Projection.legalize_of_isLegal hb hc (Projection.isLegal_legalize hb hc hx o)
  · -- Without a legal offset every offset goes to the end of the source.
    have hempty : (d.projection.legalOffsets gs).isEmpty = true := by
      rw [List.isEmpty_iff]
      exact List.eq_nil_iff_forall_not_mem.2 fun x hmem =>
        hx ⟨x, (Projection.isLegal_iff_mem hb hc).2 hmem⟩
    have hall : ∀ o, d.projection.legalize gs o = d.projection.source.length := fun o => by
      rw [Projection.legalize_eq hb hc, Projection.settle, if_neg fun h => hx ⟨_, h⟩, if_pos hempty]
    rw [hall, hall]

/-- A document of two paragraphs with a blank line between them, the caret at its start. -/
def letters : Document :=
  ⟨Projection.of .units (twoParagraphs 5) (Text.ofString "a\n\nbc") {} none, .collapsed 0⟩

theorem letters_live : letters.Live .units :=
  ⟨Built.anew twoParagraphs_conforms.2 {}, twoParagraphs_schemaConforms⟩

/-- The caret between the last two letters stays there, and every offset goes to a caret. -/
theorem legalize_closure_letters : letters.projection.legalize .units 4 = 4 ∧
    ∀ o, letters.projection.isLegal .units (letters.projection.legalize .units o) = true := by
  have hlegal : letters.projection.isLegal .units 4 = true := by decide
  obtain ⟨hreaches, hkeeps, -⟩ := legalize_closure letters_live
  exact ⟨hkeeps 4 hlegal, fun o => hreaches o ⟨4, hlegal⟩⟩

end Document

end Flark
