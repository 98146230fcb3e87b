import Flark.Kernel.Conforms

/-!
# Reuse

A projection built with an earlier one has the rows of the projection built anew: a row is
taken over only where it is the row that would be built, moved.

* `matchRow_content`: the row taken over for a leaf shows what its row built anew shows;
* `Projection.of_previous`: projecting with an earlier projection is projecting without.
-/

namespace Flark

/-! ## What the comparison of two blocks says -/

/-- The texts agree up to the end of their common prefix, which is within both. -/
theorem commonPrefix_spec (a b : Text) {i : Nat} (h : i < commonPrefix a b) :
    a[i]? = b[i]? ∧ i < a.length ∧ i < b.length := by
  induction a generalizing b i with
  | nil => cases b <;> simp [commonPrefix] at h
  | cons x a ih =>
    cases b with
    | nil => simp [commonPrefix] at h
    | cons y b =>
      rw [commonPrefix] at h
      split at h
      · next hxy =>
        cases i with
        | zero => simp [hxy]
        | succ i =>
          obtain ⟨h₁, h₂, h₃⟩ := ih b (Nat.lt_of_succ_lt_succ h)
          exact ⟨by simpa using h₁, Nat.succ_lt_succ h₂, Nat.succ_lt_succ h₃⟩
      · cases h

/-- `List.map` of two ranges of one length, compared entry by entry. -/
theorem map_range'_congr {α : Type} {f g : Nat → α} {i j count : Nat}
    (h : ∀ k < count, f (i + k) = g (j + k)) :
    (List.range' i count).map f = (List.range' j count).map g := by
  refine List.ext_getElem (by simp) fun k hk hk' => ?_
  simpa using h k (by simpa using hk)

section

variable {m old : RenderModel} {b ob : Nat} {base oldBase : Int}

/-- The move from the records of block `ob` of the old model to those of block `b`. -/
def shiftOf (m old : RenderModel) (b ob : Nat) (base oldBase : Int) : Shift where
  offset := base - oldBase
  line := (m.blockFirstLine b : Int) - old.blockFirstLine ob
  run := (m.firstRunOfBlock b : Int) - old.firstRunOfBlock ob

/-- Content that is compared as the same is the other's, moved along. -/
theorem contentOf_eq
    (hcount : m.blockContentCount b = old.blockContentCount ob)
    (h : sameContentRecords m (m.blockContentOffset b) old (old.blockContentOffset ob)
      (m.blockContentCount b) base oldBase (m.blockFirstLine b) (old.blockFirstLine ob) = true) :
    m.contentOf b = (old.contentOf ob).map (shiftOf m old b ob base oldBase).content := by
  rw [RenderModel.contentOf, RenderModel.contentOf, List.map_map, ← hcount]
  refine map_range'_congr fun k hk => ?_
  have hk := List.all_eq_true.1 h k (List.mem_range.2 hk)
  simp only [Bool.and_eq_true, decide_eq_true_eq] at hk
  obtain ⟨⟨⟨⟨hstart, hend⟩, hprefix⟩, hline⟩, hvirtual⟩ := hk
  have hspaces : m.contentVirtualSpaces (m.blockContentOffset b + k) =
      old.contentVirtualSpaces (old.blockContentOffset ob + k) := by
    rw [RenderModel.contentVirtualSpaces, RenderModel.contentVirtualSpaces, hvirtual]
  simp only [Function.comp_apply, RenderModel.contentView, Shift.content, shiftOf, hspaces,
    ContentView.mk.injEq, and_true]
  omega

theorem word_le_noParent (m : RenderModel) (i : Nat) : m.word i ≤ noParent := by
  have := (m.words.getD i 0).toNat_lt
  rw [RenderModel.word, noParent]
  omega

theorem firstRunOfBlock_le_noParent (m : RenderModel) (b : Nat) :
    m.firstRunOfBlock b ≤ noParent := by
  rw [RenderModel.firstRunOfBlock]
  split <;> exact word_le_noParent m _

/-- The parent of a run, as its index or none. -/
theorem runView_parent_eq_some {r p : Nat} :
    (m.runView r).parent = some (p : Int) ↔ m.runParent r = p ∧ p ≠ noParent := by
  rw [RenderModel.runView]
  dsimp only
  split
  · next h => simpa [h] using fun h => h.symm
  · next h =>
    rw [Option.some_inj, Int.ofNat_inj]
    exact ⟨fun hp => ⟨hp, hp ▸ h⟩, And.left⟩

/-- A run of one model next to a run of another, with the words that compare equal. -/
structure SameRun (m old : RenderModel) (r q : Nat) (base oldBase : Int) : Prop where
  hidden : m.run r 2 = old.run q 2
  packed : m.run r 3 = old.run q 3
  start : (m.runStart r : Int) - base = old.runStart q - oldBase
  stop : (m.runEnd r : Int) - base = old.runEnd q - oldBase

namespace SameRun

variable {r q : Nat}

theorem kind (h : SameRun m old r q base oldBase) : m.runKind r = old.runKind q := by
  rw [RenderModel.runKind, RenderModel.runKind, h.packed]

/-- Runs that are the same display a string, or do not, alike. -/
theorem displaysString (h : SameRun m old r q base oldBase) :
    m.displaysString r = old.displaysString q := by
  rw [RenderModel.displaysString, RenderModel.displaysString, h.kind, RenderModel.runFlags,
    RenderModel.runFlags, h.packed]

/-- The content of a run starts where the other's does, read from its block. -/
theorem contentStart (h : SameRun m old r q base oldBase)
    (hwide : m.run r 2 = RenderModel.wideHidden →
      (m.runContentStart r : Int) - base = old.runContentStart q - oldBase) :
    (m.runContentStart r : Int) - base = old.runContentStart q - oldBase := by
  by_cases hc : m.run r 2 = RenderModel.wideHidden
  · exact hwide hc
  · have hstart := h.start
    rw [RenderModel.runContentStart, RenderModel.runContentStart, ← h.hidden]
    simp only [hc, if_false]
    simp only [RenderModel.runStart] at hstart
    omega

/-- The width hidden behind a run's content, in a run whose end lies behind its content. -/
theorem contentEnd (h : SameRun m old r q base oldBase)
    (hwide : m.run r 2 = RenderModel.wideHidden →
      (m.runContentEnd r : Int) - base = old.runContentEnd q - oldBase)
    (hle : m.runStart r ≤ m.runContentEnd r) (hle' : old.runStart q ≤ old.runContentEnd q) :
    (m.runContentEnd r : Int) - base = old.runContentEnd q - oldBase := by
  by_cases hc : m.run r 2 = RenderModel.wideHidden
  · exact hwide hc
  · have hc' : old.run q 2 ≠ RenderModel.wideHidden := h.hidden ▸ hc
    have hstart := h.start
    have hstop := h.stop
    rw [RenderModel.runContentEnd] at hle hle' ⊢
    rw [RenderModel.runContentEnd]
    simp only [hc, hc', if_false] at hle hle' ⊢
    rw [← h.hidden] at hle' ⊢
    simp only [RenderModel.runStart, RenderModel.runEnd] at hstart hstop hle hle'
    omega

/-- Runs that are the same display the same in place of their source. -/
theorem override (h : SameRun m old r q base oldBase)
    (hshown : m.displaysString r = true → m.displayOverride r = old.displayOverride q) :
    m.displayOverride r = old.displayOverride q := by
  by_cases hc : m.displaysString r = true
  · exact hshown hc
  · rw [RenderModel.displayOverride, RenderModel.displayOverride, ← h.displaysString]
    simp only [hc]
    rfl

/-- The parents of two runs at one place `k` of their blocks, when each is an earlier run of
    its block. -/
theorem parent {r₀ q₀ k : Nat} (h : SameRun m old (r₀ + k) (q₀ + k) base oldBase)
    (hwide : m.run (r₀ + k) 3 >>> 16 &&& 0xFFFF = RenderModel.wideDistance →
      (m.runParent (r₀ + k) : Int) - r₀ = old.runParent (q₀ + k) - q₀)
    (hr : r₀ + k < noParent) (hq : q₀ + k < noParent)
    (hp : m.runParent (r₀ + k) = noParent ∨
      r₀ ≤ m.runParent (r₀ + k) ∧ m.runParent (r₀ + k) < r₀ + k)
    (hp' : old.runParent (q₀ + k) = noParent ∨
      q₀ ≤ old.runParent (q₀ + k) ∧ old.runParent (q₀ + k) < q₀ + k) :
    (m.runParent (r₀ + k) = noParent ↔ old.runParent (q₀ + k) = noParent) ∧
      (m.runParent (r₀ + k) ≠ noParent →
        (m.runParent (r₀ + k) : Int) - r₀ = old.runParent (q₀ + k) - q₀) := by
  by_cases hc : m.run (r₀ + k) 3 >>> 16 &&& 0xFFFF = RenderModel.wideDistance
  · have := hwide hc
    omega
  · have hc' : old.run (q₀ + k) 3 >>> 16 &&& 0xFFFF ≠ RenderModel.wideDistance := h.packed ▸ hc
    rw [RenderModel.runParent] at hp hp' ⊢
    rw [RenderModel.runParent]
    simp only [hc, hc', if_false] at hp hp' ⊢
    rw [← h.packed] at hp' ⊢
    split at hp
    · next hz => simp [hz]
    · next hz =>
      simp only [hz, if_false] at hp' ⊢
      omega

end SameRun

/-- Runs that are compared as the same are the other's, moved along. -/
theorem runsOf_eq {src oldSrc : Text} (hm : m.LeafConforms src b)
    (hold : old.LeafConforms oldSrc ob)
    (hcount : m.firstRunOfBlock (b + 1) - m.firstRunOfBlock b =
      old.firstRunOfBlock (ob + 1) - old.firstRunOfBlock ob)
    (h : sameRunRecords m (m.firstRunOfBlock b) old (old.firstRunOfBlock ob)
      (m.firstRunOfBlock (b + 1) - m.firstRunOfBlock b) base oldBase = true) :
    m.runsOf b = (old.runsOf ob).map (shiftOf m old b ob base oldBase).runView := by
  rw [RenderModel.runsOf, RenderModel.runsOf, List.map_map, ← hcount]
  refine map_range'_congr fun k hk => ?_
  -- The comparison is of the packed words, so that what is not packed has been compared on its own.
  have hsame := List.all_eq_true.1 h k (List.mem_range.2 hk)
  simp only [Bool.and_eq_true, Bool.or_eq_true, Bool.not_eq_true', decide_eq_true_eq,
    bne_iff_ne, ne_eq] at hsame
  obtain ⟨⟨⟨⟨⟨⟨hhidden, hpacked⟩, hstart⟩, hstop⟩, hwide⟩, hdistance⟩, hshown⟩ := hsame
  have hrun : SameRun m old (m.firstRunOfBlock b + k) (old.firstRunOfBlock ob + k) base oldBase :=
    ⟨hhidden, hpacked, hstart, hstop⟩
  have hmem : m.runView (m.firstRunOfBlock b + k) ∈ m.runsOf b :=
    List.mem_map_of_mem (List.mem_range'_1.2 ⟨by omega, by omega⟩)
  have hmem' : old.runView (old.firstRunOfBlock ob + k) ∈ old.runsOf ob :=
    List.mem_map_of_mem (List.mem_range'_1.2 ⟨by omega, by omega⟩)
  have hin := hm.runs _ hmem
  have hin' := hold.runs _ hmem'
  have hcs := hrun.contentStart fun hc => (hwide.resolve_left (not_not.2 hc)).1
  have hce := hrun.contentEnd (fun hc => (hwide.resolve_left (not_not.2 hc)).2)
    (Int.ofNat_le.1 (hin.start_le.trans hin.content_le))
    (Int.ofNat_le.1 (hin'.start_le.trans hin'.content_le))
  have hover := hrun.override fun hc => hshown.resolve_left (by simp [hc])
  have hlast := firstRunOfBlock_le_noParent m (b + 1)
  have hlast' := firstRunOfBlock_le_noParent old (ob + 1)
  -- A parent that is none, or of the same block, is compared by its distance.
  have hparent : ∀ {model : RenderModel} {text : Text} {block r : Nat},
      model.LeafConforms text block → model.runView r ∈ model.runsOf block →
      model.runParent r = noParent ∨
        model.firstRunOfBlock block ≤ model.runParent r ∧ model.runParent r < r := by
    intro model text block r hmodel hr
    refine or_iff_not_imp_left.2 fun hne => ?_
    have := hmodel.parents _ hr _ (Option.mem_def.2 (runView_parent_eq_some.2 ⟨rfl, hne⟩))
    exact ⟨Int.ofNat_le.1 this.1, Int.ofNat_lt.1 this.2⟩
  obtain ⟨hnone, hsome⟩ := hrun.parent (fun hc => hdistance.resolve_left (not_not.2 hc))
    (by omega) (by omega) (hparent hm hmem) (hparent hold hmem')
  have hparents : (m.runView (m.firstRunOfBlock b + k)).parent =
      (old.runView (old.firstRunOfBlock ob + k)).parent.map
        (· + (shiftOf m old b ob base oldBase).run) := by
    simp only [RenderModel.runView, hnone]
    split
    · rfl
    · next hne =>
      have := hsome (mt hnone.1 hne)
      simp only [Option.map_some, Option.some_inj, shiftOf]
      omega
  have hviews : ∀ v w : RunView, v.index = w.index → v.kind = w.kind → v.start = w.start →
      v.stop = w.stop → v.contentStart = w.contentStart → v.contentEnd = w.contentEnd →
      v.parent = w.parent → v.override = w.override → v = w := by
    rintro ⟨⟩ ⟨⟩ rfl rfl rfl rfl rfl rfl rfl rfl
    rfl
  refine hviews _ _ ?_ hrun.kind ?_ ?_ ?_ ?_ hparents (congrArg Option.join hover)
  · simp only [RenderModel.runView, Function.comp_apply, Shift.runView, shiftOf]
    omega
  · have := hrun.start
    simp only [RenderModel.runView, Function.comp_apply, Shift.runView, shiftOf]
    omega
  · have := hrun.stop
    simp only [RenderModel.runView, Function.comp_apply, Shift.runView, shiftOf]
    omega
  · simp only [RenderModel.runView, Function.comp_apply, Shift.runView, shiftOf]
    omega
  · simp only [RenderModel.runView, Function.comp_apply, Shift.runView, shiftOf]
    omega

/-- The records of blocks that compare equal are the old block's, moved. -/
theorem leaf_eq {u : Reuse} {src : Text} (hm : u.m.LeafConforms src b)
    {oldSrc : Text} (hold : u.old.LeafConforms oldSrc ob)
    (h : u.sameBlock b ob base oldBase = true) :
    u.m.leaf b = (shiftOf u.m u.old b ob base oldBase).leaf (u.old.leaf ob) := by
  simp only [Reuse.sameBlock, Bool.and_eq_true, Bool.or_eq_true, Bool.not_eq_true',
    decide_eq_true_eq] at h
  obtain ⟨⟨⟨⟨⟨⟨⟨⟨⟨⟨hkind, hflags⟩, hattr⟩, hcount⟩, hstart⟩, hend⟩, hinfo⟩, hcn⟩, hcontent⟩, hrn⟩,
    hruns⟩ := h
  have hfenced : u.m.blockFenced b = u.old.blockFenced ob := by
    rw [RenderModel.blockFenced, RenderModel.blockFenced, hkind, hflags]
  have hinfo' : ∀ x y : Nat, (u.m.blockFenced b = true → (x : Int) - base = y - oldBase) →
      (if u.m.blockFenced b then (x : Int) else -1) =
        moveOffset (base - oldBase) (if u.old.blockFenced ob then (y : Int) else -1) := by
    intro x y hxy
    rw [← hfenced]
    split
    · next hc =>
      have := hxy hc
      rw [moveOffset_of_nonneg (Int.natCast_nonneg y)]
      omega
    · rfl
  have h₁ := hinfo' _ (u.old.codeInfoStart ob) fun hc => (hinfo.resolve_left (by simp [hc])).1
  have h₂ := hinfo' _ (u.old.codeInfoEnd ob) fun hc => (hinfo.resolve_left (by simp [hc])).2
  have h₃ := contentOf_eq hcn hcontent
  have h₄ := runsOf_eq hm hold hrn hruns
  rw [RenderModel.leaf, h₁, h₂, h₃, h₄, hkind, hflags, hattr, hcount]
  simp only [RenderModel.leaf, Shift.leaf, shiftOf, LeafRecords.mk.injEq, true_and, and_true]
  omega

end

namespace Reuse

variable {u : Reuse}

/-- What an old block and the block it stands for have in common: a stretch of the source. -/
theorem sameWindow {b : Nat} {ob oldStart : Int}
    (hc : u.candidate b = some (ob, oldStart))
    (hle : extentStart u.m b ≤ extentEnd u.m u.length b)
    (hstop : extentEnd u.m u.length b ≤ u.length) :
    0 ≤ oldStart ∧
      SameWindow u.previous.source oldStart.toNat u.source (extentStart u.m b)
        (extentEnd u.m u.length b - extentStart u.m b) := by
  rw [candidate] at hc
  generalize extentStart u.m b = start at *
  generalize extentEnd u.m u.length b = stop at *
  -- A block in the common front stands where it stood, and one in the common back as far from the
  -- end.
  split at hc
  · next hprefix =>
    cases hc
    have hshared : ∀ i, i < stop - start →
        u.previous.source[start + i]? = u.source[start + i]? ∧
          start + i < u.previous.source.length ∧ start + i < u.source.length :=
      fun i hi => commonPrefix_spec _ _ (by rw [commonStart] at hprefix; omega)
    have hlen : stop ≤ u.previous.source.length := by
      rcases Nat.eq_zero_or_pos stop with h0 | hpos
      · omega
      · have := commonPrefix_spec _ _ (show stop - 1 < commonPrefix u.previous.source u.source by
          rw [commonStart] at hprefix; omega)
        omega
    rw [length] at hstop
    refine ⟨Int.natCast_nonneg _, ?_, by omega, fun i hi => ?_⟩
    · rw [Int.toNat_natCast]
      omega
    · rw [Int.toNat_natCast]
      exact (hshared i hi).1
  · split at hc
    · next hsuffix =>
      cases hc
      have hlen : u.length = u.source.length := rfl
      have holdLen : u.oldLength = u.previous.source.length := rfl
      have hend : u.commonEnd = min (commonPrefix u.previous.source.reverse u.source.reverse)
          (min u.source.length u.previous.source.length - u.commonStart) := rfl
      refine ⟨by omega, by omega, by omega, fun i hi => ?_⟩
      have hrev := (commonPrefix_spec u.previous.source.reverse u.source.reverse
        (i := u.source.length - 1 - (start + i)) (by omega)).1
      rw [List.getElem?_reverse (by omega), List.getElem?_reverse (by omega)] at hrev
      have h₁ : u.source.length - 1 - (u.source.length - 1 - (start + i)) = start + i := by omega
      have h₂ : u.previous.source.length - 1 - (u.source.length - 1 - (start + i)) =
          ((start : Int) - ((u.length : Int) - u.oldLength)).toNat + i := by
        omega
      rwa [h₁, h₂] at hrev
    · cases hc

/-- The extent of a conforming leaf starts with its first line. -/
theorem extentStart_eq {m : RenderModel} {src : Text} {b : Nat} (ht : m.HasLineTable src)
    (h : m.LeafConforms src b) (hn : m.blockLineCount b ≠ 0) :
    extentStart m b = m.linesStart src b := by
  have hlines := h.lines
  have hstart := h.start
  rw [extentStart, if_pos (by omega), ht.starts _ (by omega)]
  exact min_eq_right hstart

/-- The extent of a conforming leaf holds its lines and lies inside the source. -/
theorem extentEnd_spec {m : RenderModel} {src : Text} (b : Nat) (ht : m.HasLineTable src) :
    m.linesEnd src b ≤ extentEnd m src.length b ∧ extentEnd m src.length b ≤ src.length := by
  have hnext : (if m.blockFirstLine b + m.blockLineCount b < m.lineCount then
      m.lineStartUtf16 (m.blockFirstLine b + m.blockLineCount b) else src.length) =
      m.linesEnd src b := by
    split
    · next hlt => exact ht.starts _ hlt
    · next hge => exact (lineBound_of_le (ht.count ▸ Nat.not_lt.1 hge)).symm
  rw [extentEnd, hnext]
  refine ⟨le_max_left _ _, max_le (lineBound_le_length _ _) ?_⟩
  split <;> omega

/-- A leaf's records are within its lines. -/
theorem leaf_within {m : RenderModel} {src : Text} {b : Nat} (h : m.LeafConforms src b) :
    (m.leaf b).Within (m.linesStart src b) (m.linesEnd src b) :=
  ⟨Int.ofNat_le.2 h.start, h.content, h.runs⟩

/-- What a reused row shows depends on what the old row shows. -/
theorem reused_content {row row' : ProjectedRow} (h : row.content = row'.content) (index : Nat)
    (block : Int) (first : Nat) (shells : List Shell) (delta runDelta : Int) (cell : CellFields) :
    (row.reused index block first shells delta runDelta cell).content =
      (row'.reused index block first shells delta runDelta cell).content := by
  cases row
  cases row'
  simp only [ProjectedRow.content, ProjectedRow.mk.injEq] at h
  simp only [ProjectedRow.reused, ProjectedRow.content, h]

/-- Blocks that are compared as the same are of one kind and have as many lines. -/
theorem sameBlock_kind {b ob : Nat} {base oldBase : Int}
    (h : u.sameBlock b ob base oldBase = true) :
    u.m.blockKind b = u.old.blockKind ob ∧ u.m.blockLineCount b = u.old.blockLineCount ob := by
  simp only [sameBlock, Bool.and_eq_true, decide_eq_true_eq] at h
  exact ⟨h.1.1.1.1.1.1.1.1.1.1, h.1.1.1.1.1.1.1.2⟩

/-- A row that is found for a leaf of the old model is a row of that leaf. -/
theorem rowOfBlock_spec {ob : Nat} {row : ProjectedRow} (h : u.rowOfBlock ob = some row) :
    row ∈ u.previous.rows ∧ row.block = ob ∧ RenderModel.isLeaf (u.old.blockKind ob) = true := by
  rw [rowOfBlock] at h
  split at h
  · next hleaf =>
    have hblock : (row.block == (ob : Int)) = true :=
      List.find?_some (p := fun row : ProjectedRow => row.block == (ob : Int)) h
    exact ⟨List.mem_reverse.1 (List.mem_of_find?_eq_some h), beq_iff_eq.1 hblock, hleaf⟩
  · cases h

/-- What a match says. -/
theorem matchRow_spec {b : Nat} {row : ProjectedRow} {delta runDelta : Int}
    (h : u.matchRow b = some (row, delta, runDelta)) :
    u.m.blockLineCount b ≠ 0 ∧ ∃ ob : Nat,
      u.candidate b = some ((ob : Int), (extentStart u.old ob : Int)) ∧ ob < u.old.blockCount ∧
      u.rowOfBlock ob = some row ∧
      (extentEnd u.old u.oldLength ob : Int) =
        extentStart u.old ob + (extentEnd u.m u.length b - extentStart u.m b : Int) ∧
      u.sameBlock b ob (extentStart u.m b) (extentStart u.old ob) = true ∧
      delta = (extentStart u.m b : Int) - extentStart u.old ob ∧
      runDelta = (u.m.firstRunOfBlock b : Int) - u.old.firstRunOfBlock ob := by
  -- Each test of the match that fails leaves no row.
  rw [matchRow] at h
  split at h
  · cases h
  next hn =>
  refine ⟨hn, ?_⟩
  cases hcand : u.candidate b with
  | none => simp only [hcand] at h; cases h
  | some candidate =>
    obtain ⟨obInt, oldStart⟩ := candidate
    simp only [hcand] at h
    split at h
    · cases h
    next hob =>
    obtain ⟨ob, rfl⟩ := Int.eq_ofNat_of_zero_le (show 0 ≤ obInt by omega)
    rw [Int.toNat_natCast] at h
    cases hrow : u.rowOfBlock ob with
    | none => simp only [hrow] at h; cases h
    | some found =>
      simp only [hrow] at h
      split at h
      · cases h
      next hmatch =>
      simp only [Option.some_inj, Prod.mk.injEq] at h
      simp only [not_or, not_not] at hmatch
      obtain ⟨rfl, hoe, hsame⟩ := hmatch
      exact ⟨ob, rfl, by omega, h.1 ▸ hrow, hoe, hsame, h.2.1.symm, h.2.2.symm⟩

/-- The lines of a block that matches are the old block's lines, moved. -/
theorem carries_of_candidate {b ob : Nat} (hm : u.m.HasLineTable u.source)
    (hold : u.old.HasLineTable u.previous.source) (hmc : u.m.LeafConforms u.source b)
    (holdc : u.old.LeafConforms u.previous.source ob) (hn : u.m.blockLineCount b ≠ 0)
    (hcount : u.m.blockLineCount b = u.old.blockLineCount ob)
    (hcand : u.candidate b = some ((ob : Int), (extentStart u.old ob : Int)))
    (hoe : (extentEnd u.old u.oldLength ob : Int) =
      extentStart u.old ob + (extentEnd u.m u.length b - extentStart u.m b : Int)) :
    Carries u.old u.previous.source u.m u.source
      (shiftOf u.m u.old b ob (extentStart u.m b) (extentStart u.old ob))
      (u.old.linesStart u.previous.source ob) (u.old.linesEnd u.previous.source ob)
      (u.old.leaf ob).firstLine (u.old.leaf ob).lineCount := by
  have hstart := extentStart_eq hm hmc hn
  have hstart' := extentStart_eq hold holdc (hcount ▸ hn)
  obtain ⟨hend, hstop⟩ := extentEnd_spec b hm
  obtain ⟨hend', hstop'⟩ := extentEnd_spec ob hold
  have hle : u.m.linesStart u.source b ≤ u.m.linesEnd u.source b := lineBound_mono (by omega)
  have hlength : u.length = u.source.length := rfl
  have hlength' : u.oldLength = u.previous.source.length := rfl
  rw [hlength, hlength'] at hoe
  obtain ⟨hnonneg, hwindow⟩ := sameWindow hcand (by rw [hlength]; omega) hstop
  rw [Int.toNat_natCast, hstart, hstart', hlength] at hwindow
  have hlines := holdc.lines
  have hlines' := hmc.lines
  rw [hold.count] at hlines
  rw [hm.count, hcount] at hlines'
  rw [RenderModel.linesEnd] at hend hend'
  rw [hcount] at hend
  have hwin : SameLines u.previous.source (u.old.blockFirstLine ob) u.source
      (u.m.blockFirstLine b) (u.old.blockLineCount ob)
      (extentEnd u.m u.source.length b - u.m.linesStart u.source b) := by
    rw [hstart, hstart'] at hoe
    rw [RenderModel.linesStart, RenderModel.linesStart] at hoe hwindow
    rw [RenderModel.linesStart]
    exact ⟨hwindow, hlines, hlines', by omega, by omega⟩
  rw [shiftOf, hstart, hstart']
  exact carries_of_sameLines hold hm hwin (Nat.pos_of_ne_zero (hcount ▸ hn)) _

/-- The row taken over for a leaf shows what its row built anew shows. -/
theorem matchRow_content {gs : Graphemes} {options : ProjectionOptions} {b : Nat}
    (hb : b < u.m.blockCount) (hleaf : RenderModel.isLeaf (u.m.blockKind b) = true)
    (hm : u.m.Conforms u.source) (hold : u.old.Conforms u.previous.source)
    (hrows : ∀ row ∈ u.previous.rows, ∀ ob : Nat, row.block = ob →
      RenderModel.isLeaf (u.old.blockKind ob) = true →
      row.content = (u.old.freshRow u.previous.source gs options ob).content)
    {row : ProjectedRow} {delta runDelta : Int} (h : u.matchRow b = some (row, delta, runDelta)) :
    (row.reused 0 b (u.m.leafFirst b) (u.m.leafShells b) delta runDelta (u.m.leafCell b)).content =
      (u.m.freshRow u.source gs options b).content := by
  obtain ⟨hn, ob, hcand, hob, hrow, hoe, hsame, rfl, rfl⟩ := matchRow_spec h
  obtain ⟨hmem, hblock, hleaf'⟩ := rowOfBlock_spec hrow
  obtain ⟨hkind, hcount⟩ := sameBlock_kind hsame
  have hmc := hm.leaf b hb hleaf hn
  have holdc := hold.leaf ob hob hleaf' (hcount ▸ hn)
  have hcarries := carries_of_candidate hm.table hold.table hmc holdc hn hcount hcand hoe
  have hleafEq := leaf_eq hmc holdc hsame
  have hkind' : (u.old.leaf ob).kind = u.m.blockKind b := hkind.symm
  refine (reused_content (hrows row hmem ob hblock hleaf') _ _ _ _ _ _ _).trans ?_
  rw [RenderModel.freshRow, RenderModel.freshRow, ← hkind, RenderModel.leafFirst, hleafEq]
  split
  · refine (inlineRow_shift hcarries (leaf_within holdc) options ob b _ _ _ _ (fun hh => ?_) 0).symm
    rw [RenderModel.leafCell, if_neg]
    rw [← hkind', hh]
    decide
  · next hinline =>
    simp only [RenderModel.isInline, Bool.or_eq_true, beq_iff_eq, not_or] at hinline
    rw [RenderModel.leafCell, if_neg hinline.2]
    exact (literalRow_shift hcarries (leaf_within holdc)
      ⟨hkind' ▸ hinline.1.1, hkind' ▸ hinline.1.2⟩ ob b _ _ 0).symm

end Reuse

/-! ## Building with other rows for the leaves -/

theorem firstLine_of_content {row row' : ProjectedRow} (h : row.content = row'.content) :
    row.firstLine = row'.firstLine := by
  have := congrArg ProjectedRow.firstLine h
  exact this

theorem lineCount_of_content {row row' : ProjectedRow} (h : row.content = row'.content) :
    row.lineCount = row'.lineCount := by
  have := congrArg ProjectedRow.lineCount h
  exact this

/-- Two states of the builder that show the same. -/
structure Building.Shows (st st' : Building) : Prop where
  rows : st.rows.map ProjectedRow.content = st'.rows.map ProjectedRow.content
  claimed : st.claimed = st'.claimed

namespace Building.Shows

variable {st st' : Building}

/-- Rows with the same content, added to buildings that show the same, leave them so. -/
theorem addRow (h : st.Shows st') {row row' : ProjectedRow} (hrow : row.content = row'.content) :
    (st.addRow row).Shows (st'.addRow row') := by
  have hfirst := firstLine_of_content hrow
  have hcount := lineCount_of_content hrow
  refine ⟨?_, ?_⟩
  · simp only [Building.addRow, List.map_append, h.rows, List.map_cons, hrow, List.map_nil]
  · simp only [Building.addRow, h.claimed, hfirst, hcount]

/-- Lines that are claimed in both leave them showing the same. -/
theorem claim (h : st.Shows st') (first n : Nat) :
    (st.claim first n).Shows (st'.claim first n) :=
  ⟨h.rows, by simp only [Building.claim, h.claimed]⟩

end Building.Shows

section

variable {gs : Graphemes} {m : RenderModel} {src : Text} {options : ProjectionOptions}
  {reused : Nat → Option ProjectedRow}

/-- Steps that keep two buildings showing the same do so one after the other. -/
theorem foldl_shows {f g : Building → Nat → Building} {l : List Nat}
    (h : ∀ b ∈ l, ∀ st st' : Building, st.Shows st' → (f st b).Shows (g st' b))
    {st st' : Building} (hst : st.Shows st') : (l.foldl f st).Shows (l.foldl g st') := by
  induction l generalizing st st' with
  | nil => exact hst
  | cons b l ih =>
    exact ih (fun c hc => h c (List.mem_cons_of_mem _ hc)) (h b List.mem_cons_self _ _ hst)

/-- The step of a block shows the same with a row taken over as with a fresh one. -/
theorem blockStep_shows {b : Nat}
    (h : RenderModel.isLeaf (m.blockKind b) = true → ∀ row, reused b = some row →
      row.content = (m.freshRow src gs options b).content) {st st' : Building}
    (hst : st.Shows st') :
    (blockStep gs m src options reused st b).Shows
      (blockStep gs m src options (fun _ => none) st' b) := by
  have hrow : RenderModel.isLeaf (m.blockKind b) = true →
      ((reused b).getD (m.freshRow src gs options b)).content =
        (m.freshRow src gs options b).content := by
    intro hleaf
    cases hr : reused b with
    | none => rfl
    | some row => exact h hleaf row hr
  have hlines : ∀ {a a' : Building}, a.Shows a' →
      (if RenderModel.isLeaf (m.blockKind b) = true ∧ m.blockKind b ≠ BlockKind.tableCell then
        a.claim (m.blockFirstLine b) (m.blockLineCount b) else a).Shows
      (if RenderModel.isLeaf (m.blockKind b) = true ∧ m.blockKind b ≠ BlockKind.tableCell then
        a'.claim (m.blockFirstLine b) (m.blockLineCount b) else a') := by
    intro a a' ha
    split
    · exact ha.claim _ _
    · exact ha
  refine hlines ?_
  split
  · next hleaf => exact hst.addRow (hrow hleaf)
  · split
    · exact hst.addRow rfl
    · split
      · split
        · cases m.delimiterRow src b (m.blockFirstLine b + 1) with
          | none => exact hst.claim _ _
          | some row => exact (hst.claim _ _).addRow rfl
        · exact hst.claim _ _
      · exact hst

/-- The step of a blank line takes nothing over. -/
theorem blankStep_shows {l : Nat} {st st' : Building} (hst : st.Shows st') :
    (blankStep m src st l).Shows (blankStep m src st' l) := by
  have hclaims : st.claims l = st'.claims l := by
    rw [Building.claims, Building.claims, hst.claimed]
  rw [blankStep, blankStep, hclaims]
  split
  · exact hst
  · exact hst.addRow rfl

/-- The rows show the same whether leaf rows are taken over or built, when each row taken over
    shows what the row built would. -/
theorem buildRows_content
    (h : ∀ b < m.blockCount, RenderModel.isLeaf (m.blockKind b) = true → ∀ row,
      reused b = some row → row.content = (m.freshRow src gs options b).content) :
    (buildRows gs m src options reused).map ProjectedRow.content =
      (buildRows gs m src options fun _ => none).map ProjectedRow.content := by
  have hblocks : ∀ st : Building,
      ((List.range m.blockCount).foldl (blockStep gs m src options reused) st).Shows
        ((List.range m.blockCount).foldl (blockStep gs m src options fun _ => none) st) :=
    fun st => foldl_shows (fun b hb _ _ hst => blockStep_shows (h b (List.mem_range.1 hb)) hst)
      ⟨rfl, rfl⟩
  rw [buildRows, buildRows]
  exact (foldl_shows (f := blankStep m src) (g := blankStep m src)
    (fun l _ _ _ hst => blankStep_shows hst) (hblocks _)).rows

/-! ## Ordering and listing -/

/-- The order of rows is one of their content. -/
theorem map_content_orderRows (lineCount : Nat) (rows : List ProjectedRow) :
    (orderRows lineCount rows).map ProjectedRow.content =
      orderRows lineCount (rows.map ProjectedRow.content) := by
  rw [orderRows, orderRows, List.map_flatMap]
  refine List.flatMap_congr fun l _ => ?_
  rw [List.filter_map]
  exact List.map_insertionSort _ _ _ _ fun a _ b _ => Iff.rfl

/-- The rows of a line are found by their content. -/
theorem rowsOn_congr {rows rows' : List ProjectedRow}
    (h : rows.map ProjectedRow.content = rows'.map ProjectedRow.content) (l : Nat) :
    rowsOn rows l = rowsOn rows' l := by
  have hlen : rows.length = rows'.length := by
    simpa using congrArg List.length h
  rw [rowsOn, rowsOn, hlen]
  refine List.filter_congr fun i _ => ?_
  have hi : (rows.map ProjectedRow.content)[i]? = (rows'.map ProjectedRow.content)[i]? := by
    rw [h]
  rw [List.getElem?_map, List.getElem?_map] at hi
  cases hr : rows[i]? <;> cases hr' : rows'[i]? <;> rw [hr, hr'] at hi <;> simp at hi
  rw [Option.any_some, Option.any_some, firstLine_of_content hi, lineCount_of_content hi]

/-- A projection is made of what its rows show. -/
theorem ofRows_congr {rows rows' : List ProjectedRow}
    (h : rows.map ProjectedRow.content = rows'.map ProjectedRow.content) :
    (Projection.ofRows m src options rows).withoutOrigins =
      (Projection.ofRows m src options rows').withoutOrigins := by
  have horder : (orderRows m.lineCount rows).map ProjectedRow.content =
      (orderRows m.lineCount rows').map ProjectedRow.content := by
    rw [map_content_orderRows, map_content_orderRows, h]
  have hplaced : ∀ l : List ProjectedRow,
      (l.mapIdx fun i r => { r with index := i }).map ProjectedRow.withoutOrigin =
        (l.map ProjectedRow.content).mapIdx fun i r => { r with index := i } := by
    intro l
    refine List.ext_getElem (by simp) fun i hi hi' => ?_
    simp [ProjectedRow.withoutOrigin, ProjectedRow.content]
  have hcontent : ∀ l : List ProjectedRow,
      (l.mapIdx fun i r => { r with index := i }).map ProjectedRow.content =
        l.map ProjectedRow.content := by
    intro l
    refine List.ext_getElem (by simp) fun i hi hi' => ?_
    simp [ProjectedRow.content]
  have hlisted : rowsOn ((orderRows m.lineCount rows).mapIdx fun i r => { r with index := i }) =
      rowsOn ((orderRows m.lineCount rows').mapIdx fun i r => { r with index := i }) :=
    funext fun l => rowsOn_congr (by rw [hcontent, hcontent, horder]) l
  simp only [Projection.ofRows, Projection.withoutOrigins, hplaced, horder, hlisted]

/-! ## Building the rows anew -/

section

variable {P : ProjectedRow → Prop}

/-- What holds of all rows holds with another of which it does. -/
theorem Building.forall_addRow {st : Building} {row : ProjectedRow} (hst : ∀ r ∈ st.rows, P r)
    (hrow : P row) : ∀ r ∈ (st.addRow row).rows, P r := by
  intro r hr
  rcases List.mem_append.1 hr with hr | hr
  · exact hst r hr
  · rw [List.mem_singleton.1 hr]
    exact hrow

/-- What every step keeps of all rows, all steps keep. -/
theorem Building.forall_foldl {f : Building → Nat → Building} {l : List Nat}
    (h : ∀ b ∈ l, ∀ st : Building, (∀ r ∈ st.rows, P r) → ∀ r ∈ (f st b).rows, P r)
    {st : Building} (hst : ∀ r ∈ st.rows, P r) : ∀ r ∈ (l.foldl f st).rows, P r := by
  induction l generalizing st with
  | nil => exact hst
  | cons b l ih =>
    exact ih (fun c hc => h c (List.mem_cons_of_mem _ hc)) (h b List.mem_cons_self st hst)

/-- The rows of the definitions and of the blocks, before the lines left. -/
def blockRows (gs : Graphemes) (m : RenderModel) (src : Text) (options : ProjectionOptions)
    (reused : Nat → Option ProjectedRow) : Building :=
  (List.range m.blockCount).foldl (blockStep gs m src options reused)
    ((List.range m.definitionCount).foldl (fun st d => st.addRow (m.definitionRow src d)) ⟨[], []⟩)

/-- What holds of every kind of row but the blank ones holds of every row before those. -/
theorem forall_blockRows {reused : Nat → Option ProjectedRow}
    (definition : ∀ d, P (m.definitionRow src d))
    (leaf : ∀ b < m.blockCount, RenderModel.isLeaf (m.blockKind b) = true →
      P ((reused b).getD (m.freshRow src gs options b)))
    (thematicBreak : ∀ b < m.blockCount, m.blockKind b = BlockKind.thematicBreak →
      P (m.thematicBreakRow src b))
    (delimiter : ∀ b < m.blockCount, ∀ row, m.blockFirstLine b + 1 < m.lineCount →
      m.delimiterRow src b (m.blockFirstLine b + 1) = some row → P row) :
    ∀ r ∈ (blockRows gs m src options reused).rows, P r := by
  have hblock : ∀ b ∈ List.range m.blockCount, ∀ st : Building, (∀ r ∈ st.rows, P r) →
      ∀ r ∈ (blockStep gs m src options reused st b).rows, P r := by
    intro b hb st hst
    have hb := List.mem_range.1 hb
    -- Hiding the lines of a leaf adds no row.
    have hlines : ∀ {a : Building}, (∀ r ∈ a.rows, P r) →
        ∀ r ∈ (if RenderModel.isLeaf (m.blockKind b) = true ∧
            m.blockKind b ≠ BlockKind.tableCell then
          a.claim (m.blockFirstLine b) (m.blockLineCount b) else a).rows, P r := by
      intro a ha
      split <;> exact ha
    refine hlines ?_
    split
    · next hleaf => exact Building.forall_addRow hst (leaf b hb hleaf)
    · split
      · next hkind => exact Building.forall_addRow hst (thematicBreak b hb hkind)
      · split
        · split
          · next hline =>
            cases hrow : m.delimiterRow src b (m.blockFirstLine b + 1) with
            | none => exact hst
            | some row => exact Building.forall_addRow hst (delimiter b hb row hline.2.2 hrow)
          · exact hst
        · exact hst
  exact Building.forall_foldl hblock
    (Building.forall_foldl (fun d _ _ hst => Building.forall_addRow hst (definition d)) (by simp))

/-- What holds of every kind of row holds of every row built. -/
theorem forall_buildRows {reused : Nat → Option ProjectedRow}
    (definition : ∀ d, P (m.definitionRow src d))
    (leaf : ∀ b < m.blockCount, RenderModel.isLeaf (m.blockKind b) = true →
      P ((reused b).getD (m.freshRow src gs options b)))
    (thematicBreak : ∀ b < m.blockCount, m.blockKind b = BlockKind.thematicBreak →
      P (m.thematicBreakRow src b))
    (delimiter : ∀ b < m.blockCount, ∀ row, m.blockFirstLine b + 1 < m.lineCount →
      m.delimiterRow src b (m.blockFirstLine b + 1) = some row → P row)
    (blank : ∀ l < m.lineCount, P (m.blankRow src l)) :
    ∀ r ∈ buildRows gs m src options reused, P r := by
  refine Building.forall_foldl (fun l hl st hst => ?_)
    (forall_blockRows definition leaf thematicBreak delimiter)
  rw [blankStep]
  split
  · exact hst
  · exact Building.forall_addRow hst (blank l (List.mem_range.1 hl))

end

/-! ## Where the rows of leaves come from -/

/-- A row of a leaf shows what the leaf's row built anew shows. -/
def Sound (gs : Graphemes) (m : RenderModel) (src : Text) (options : ProjectionOptions)
    (row : ProjectedRow) : Prop :=
  ∀ b : Nat, row.block = b → RenderModel.isLeaf (m.blockKind b) = true →
    row.content = (m.freshRow src gs options b).content

/-- A row is sound by its content. -/
theorem sound_congr {row row' : ProjectedRow} (h : row.content = row'.content)
    (hs : Sound gs m src options row) : Sound gs m src options row' := by
  intro b hb hleaf
  have hblock : row.block = row'.block := by
    have := congrArg ProjectedRow.block h
    exact this
  rw [← h]
  exact hs b (hblock.trans hb) hleaf

/-- A row of no block is sound. -/
theorem sound_of_block_neg {row : ProjectedRow} (h : row.block = -1) :
    Sound gs m src options row := fun b hb => by omega

theorem freshRow_block (b : Nat) : (m.freshRow src gs options b).block = b := by
  rw [RenderModel.freshRow]
  split
  · simp only [inlineRow]
    split <;> rfl
  · rfl

theorem delimiterRow_block {table line : Nat} {row : ProjectedRow}
    (h : m.delimiterRow src table line = some row) : row.block = -1 := by
  simp only [RenderModel.delimiterRow] at h
  split at h
  · cases h
    rfl
  · split at h
    · cases h
      rfl
    · cases h

/-- The shell of an item is around an item. -/
theorem shellOf_item {b : Nat} {shell : Shell} (h : m.shellOf b = some shell)
    (hitem : shell.kind = .item) : m.blockKind shell.block = BlockKind.item := by
  simp only [RenderModel.shellOf] at h
  split at h
  · cases h
    cases hitem
  · split at h
    · next hkind =>
      cases h
      exact hkind
    · split at h
      · cases h
        cases hitem
      · split at h
        · cases h
          cases hitem
        · cases h

/-- The shells around a block are shells of blocks. -/
theorem mem_shellChain {fuel b : Nat} {shell : Shell} (h : shell ∈ m.shellChain fuel b) :
    ∃ a, m.shellOf a = some shell := by
  induction fuel generalizing b with
  | zero => cases h
  | succ fuel ih =>
    rw [RenderModel.shellChain] at h
    split at h
    · cases h
    · rcases List.mem_append.1 h with h | h
      · exact ih h
      · exact ⟨b, Option.mem_toList.1 h⟩

theorem mem_shellsFor {container : Option Nat} {shell : Shell}
    (h : shell ∈ m.shellsFor container) : ∃ a, m.shellOf a = some shell := by
  cases container with
  | none => cases h
  | some b => exact mem_shellChain h

/-- An item shown bare on a line is an item. -/
theorem bareItem_kind {l item : Nat}
    (h : m.bareItem src l (m.shellsFor (m.containerOf l)) = some item) :
    m.blockKind item = BlockKind.item := by
  rw [RenderModel.bareItem] at h
  split at h
  · cases h
  · next inner hinner =>
    obtain ⟨a, ha⟩ := mem_shellsFor (List.mem_of_getLast? hinner)
    split at h
    · next hkind =>
      simp only at h
      split at h
      · cases h
        exact shellOf_item ha hkind
      · cases h
    · cases h

/-- The row of a blank line is sound. -/
theorem sound_blankRow (l : Nat) : Sound gs m src options (m.blankRow src l) := by
  simp only [RenderModel.blankRow]
  split
  · next item hitem =>
    intro b hb hleaf
    obtain rfl : item = b := Int.ofNat_inj.1 hb
    rw [bareItem_kind hitem] at hleaf
    cases hleaf
  · exact sound_of_block_neg rfl

/-- The rows of leaves, in a projection built anew, are the rows of the leaves. -/
theorem sound_buildRows :
    ∀ r ∈ buildRows gs m src options fun _ => none, Sound gs m src options r := by
  refine forall_buildRows (fun d => sound_of_block_neg rfl) (fun b _ _ a ha _ => ?_)
    (fun b _ hkind a ha hleaf => ?_) (fun b _ row _ hrow => ?_) fun l _ => sound_blankRow l
  · rw [Option.getD_none, freshRow_block, Int.ofNat_inj] at ha
    rw [Option.getD_none, ha]
  · obtain rfl : b = a := Int.ofNat_inj.1 ha
    rw [hkind] at hleaf
    cases hleaf
  · exact sound_of_block_neg (delimiterRow_block hrow)

/-- Rows are numbered and get their spacing, and stay sound. -/
theorem sound_ofRows {rows : List ProjectedRow} (h : ∀ r ∈ rows, Sound gs m src options r) :
    ∀ r ∈ (Projection.ofRows m src options rows).rows, Sound gs m src options r := by
  intro r hr
  obtain ⟨i, hi, rfl⟩ := List.mem_mapIdx.1 hr
  have hmem := List.getElem_mem hi
  obtain ⟨l, _, hl⟩ := List.mem_flatMap.1 hmem
  have hrow := h _ (List.mem_of_mem_filter ((List.mem_insertionSort _).1 hl))
  exact sound_congr (by rfl) hrow

end

/-! ## Projecting with an earlier projection -/

/-- A projection of a conforming model, built with or without an earlier one. -/
inductive Built (gs : Graphemes) : Projection → Prop
  | anew {m : RenderModel} {src : Text} (h : m.Conforms src) (options : ProjectionOptions) :
    Built gs (Projection.of gs m src options none)
  | reusing {m : RenderModel} {src : Text} {previous : Projection} (h : m.Conforms src)
    (options : ProjectionOptions) (hprevious : Built gs previous) :
    Built gs (Projection.of gs m src options (some previous))

section

variable {gs : Graphemes}

/-- What holds of every projection built: its model conforms, and its leaf rows are what they
    would be, built anew. -/
structure Projection.Valid (gs : Graphemes) (p : Projection) : Prop where
  conforms : p.model.Conforms p.source
  sound : ∀ r ∈ p.rows, Sound gs p.model p.source p.options r

/-- The rows built with an earlier projection show what the rows built anew show. -/
theorem buildRows_reusing {m : RenderModel} {src : Text} (hm : m.Conforms src)
    (options : ProjectionOptions) {previous : Projection} (hp : previous.Valid gs) :
    (buildRows gs m src options fun b =>
        if previous.options = options then (Reuse.mk previous m src).reusedRow b
        else none).map ProjectedRow.content =
      (buildRows gs m src options fun _ => none).map ProjectedRow.content := by
  refine buildRows_content fun b hb hleaf row hrow => ?_
  split at hrow
  · next hoptions =>
    obtain ⟨⟨old, delta, runDelta⟩, hmatch, rfl⟩ := Option.map_eq_some_iff.1 hrow
    exact Reuse.matchRow_content (u := ⟨previous, m, src⟩) hb hleaf hm hp.conforms
      (fun r hr ob hob hob' => hoptions ▸ hp.sound r hr ob hob hob') hmatch
  · cases hrow

/-- A projection that is built, by whatever reuse, is a valid one to reuse. -/
theorem Built.valid {p : Projection} (h : Built gs p) : p.Valid gs := by
  induction h with
  | anew h options => exact ⟨h, sound_ofRows sound_buildRows⟩
  | reusing h options hprevious ih =>
    refine ⟨h, sound_ofRows fun r hr => ?_⟩
    -- A row taken over shows what a row built anew shows, which is sound.
    have hmem := List.mem_map_of_mem (f := ProjectedRow.content) hr
    rw [buildRows_reusing h options ih] at hmem
    obtain ⟨fresh, hfresh, hcontent⟩ := List.mem_map.1 hmem
    exact sound_congr hcontent (sound_buildRows fresh hfresh)

/-- Projecting with an earlier projection is projecting without: the rows, their order, their
    places and the rows of each line are the same, up to where rows were taken from. -/
theorem Projection.of_previous {m : RenderModel} {src : Text} (hm : m.Conforms src)
    (options : ProjectionOptions) {previous : Projection} (hp : Built gs previous) :
    (Projection.of gs m src options (some previous)).withoutOrigins =
      (Projection.of gs m src options none).withoutOrigins :=
  ofRows_congr (buildRows_reusing hm options hp.valid)

/-- A model of two paragraphs of one line each with a blank line between them; the second one
    ends at `stop`. -/
def twoParagraphs (stop : UInt32) : RenderModel where
  bytes := []
  words :=
    [0x354B4C46, 5, stop, stop, 3, 3, 2, 2, 0, 0, 0, 0] ++ [0, 2, 3] ++
    [0, 0xFFFFFFFF, 0, stop, 0, 3, 0, 0, 0, 0xFFFFFFFF] ++
    [1, 0, 0, 1, 0, 1, 0, 0, 0, 0xFFFFFFFF] ++
    [1, 0, 3, stop, 2, 1, 1, 1, 0, 0xFFFFFFFF] ++
    [0, 1, 0, 0] ++ [3, stop, 3, 2] ++ [0, 1, 0, 1] ++ [3, stop, 0, 1]

/-- The two models of two paragraphs conform to their sources. -/
theorem twoParagraphs_conforms :
    (twoParagraphs 4).Conforms (Text.ofString "a\n\nb") ∧
      (twoParagraphs 5).Conforms (Text.ofString "a\n\nbc") :=
  ⟨⟨⟨by decide, by decide⟩, by decide⟩, ⟨⟨by decide, by decide⟩, by decide⟩⟩

/-- Typing a letter at the end of the second paragraph. -/
theorem Projection.of_previous_typed :
    (Projection.of .units (twoParagraphs 5) (Text.ofString "a\n\nbc") {}
        (some (Projection.of .units (twoParagraphs 4) (Text.ofString "a\n\nb") {} none))).withoutOrigins =
      (Projection.of .units (twoParagraphs 5) (Text.ofString "a\n\nbc") {} none).withoutOrigins :=
  Projection.of_previous twoParagraphs_conforms.2 {} (Built.anew twoParagraphs_conforms.1 {})

/-- The first paragraph is the one that is taken over. -/
example :
    (Projection.of .units (twoParagraphs 5) (Text.ofString "a\n\nbc") {}
      (some (Projection.of .units (twoParagraphs 4) (Text.ofString "a\n\nb") {} none))).rows.map
        ProjectedRow.origin = [0, -1, -1] := by
  decide

end

end Flark
