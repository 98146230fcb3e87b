import Flark.Kernel.DisplayOrder
import Flark.Kernel.Legalize
import Flark.Kernel.Spellings

/-!
# Fresh snapshots

A snapshot is made of a source, a selection and a mode, from whatever was shown before. It is the
one that opening the source makes: rows that it took over from the document before it show what
rows built anew show, and a selection that was made legal is made legal where it is.

* `Projection.legalize_withoutOrigins`: where rows were taken from changes no position;
* `Document.legalSelection_idem`: a legal selection stays where it is;
* `EditorSnapshot.Fresh`: a snapshot is what opening its source makes;
* `sound_of_projectSnapshot`, `EditorSnapshot.Sound.withSelection`: the snapshots that an editor
  makes are fresh.
-/

namespace Flark

/-! ## Where rows were taken from -/

namespace Projection

variable (gs : Graphemes) (p : Projection)

/-- Rows without their origins are read one by one. -/
theorem getElem?_withoutOrigins (i : Nat) :
    p.withoutOrigins.rows[i]? = (p.rows[i]?).map ProjectedRow.withoutOrigin :=
  List.getElem?_map

/-- What the caret cannot go into does not depend on origins. -/
theorem rowAtomicPairs_withoutOrigins :
    p.withoutOrigins.rowAtomicPairs gs = p.rowAtomicPairs gs := by
  rw [rowAtomicPairs, rowAtomicPairs]
  exact congrArg Pairs.ordered List.foldl_map

/-- Which cells are missing does not depend on origins. -/
theorem isMissingCell_withoutOrigins (index : Option Int) :
    p.withoutOrigins.isMissingCell index = p.isMissingCell index := by
  cases index with
  | none => rfl
  | some i =>
    rw [isMissingCell, isMissingCell, getElem?_withoutOrigins, getElem?_withoutOrigins]
    cases p.rows[i.toNat]? <;> cases p.rows[i.toNat - 1]? <;> rfl

/-- The spans of a line do not depend on origins. -/
theorem lineSpans_withoutOrigins (line : Nat) :
    p.withoutOrigins.lineSpans line = p.lineSpans line := by
  rw [lineSpans, lineSpans]
  simp only [isMissingCell_withoutOrigins, getElem?_withoutOrigins]
  congr 2
  funext r
  cases p.rows[r]? <;> rfl

/-- Whether the caret is held to spans does not depend on origins. -/
theorem hasCaretSpans_withoutOrigins : p.withoutOrigins.hasCaretSpans = p.hasCaretSpans := by
  rw [hasCaretSpans, hasCaretSpans]
  simp only [lineSpans_withoutOrigins]
  rfl

theorem blockedPairs_withoutOrigins : p.withoutOrigins.blockedPairs gs = p.blockedPairs gs := by
  rw [blockedPairs, blockedPairs, rowAtomicPairs_withoutOrigins]
  rfl

theorem caretSpans_withoutOrigins : p.withoutOrigins.caretSpans = p.caretSpans := by
  rw [caretSpans, caretSpans, hasCaretSpans_withoutOrigins, funext p.lineSpans_withoutOrigins]
  rfl

/-- The legal offsets do not depend on origins. -/
theorem legalOffsets_withoutOrigins : p.withoutOrigins.legalOffsets gs = p.legalOffsets gs := by
  rw [legalOffsets, legalOffsets, blockedPairs_withoutOrigins, caretSpans_withoutOrigins]
  rfl

/-- Which offsets are legal does not depend on origins. -/
theorem isLegal_withoutOrigins (o : Int) : p.withoutOrigins.isLegal gs o = p.isLegal gs o := by
  rw [isLegal, isLegal]
  simp only [blockedPairs_withoutOrigins, lineSpans_withoutOrigins, hasCaretSpans_withoutOrigins]
  rfl

/-- The nearest legal offset does not depend on origins. -/
theorem nearestLegal_withoutOrigins (o : Int) :
    p.withoutOrigins.nearestLegal gs o = p.nearestLegal gs o := by
  simp only [nearestLegal, legalOffsets_withoutOrigins]
  rfl

/-- Where an offset is made legal does not depend on origins. -/
theorem legalize_withoutOrigins (o : Int) : p.withoutOrigins.legalize gs o = p.legalize gs o := by
  rw [legalize, legalize]
  simp only [isLegal_withoutOrigins, legalOffsets_withoutOrigins, nearestLegal_withoutOrigins]
  rfl

variable {gs p}

/-- A legal offset stays where it is; without one, every offset goes to the end of the source. -/
theorem legalize_idem (h : Built gs p) (hm : p.model.SchemaConforms p.source) (o : Int) :
    p.legalize gs (p.legalize gs o) = p.legalize gs o := by
  by_cases hx : ∃ x, p.isLegal gs x = true
  · obtain ⟨x, hx⟩ := hx
    exact legalize_of_isLegal h hm (isLegal_legalize h hm hx o)
  · have hempty : (p.legalOffsets gs).isEmpty = true := by
      rw [List.isEmpty_iff]
      exact List.eq_nil_iff_forall_not_mem.2 fun x hmem => hx ⟨x, (isLegal_iff_mem h hm).2 hmem⟩
    have hall : ∀ o, p.legalize gs o = p.source.length := fun o => by
      rw [legalize_eq h hm, settle, if_neg fun h => hx ⟨_, h⟩, if_pos hempty]
    rw [hall, hall]

end Projection

namespace Document

variable (gs : Graphemes)

/-- The legal selection does not depend on origins. -/
theorem legalSelection_withoutOrigins (p : Projection) (s : Selection) :
    legalSelection gs p.withoutOrigins s = legalSelection gs p s := by
  rw [legalSelection, legalSelection]
  simp only [Projection.isMissingCell_withoutOrigins, Projection.legalize_withoutOrigins,
    Projection.getElem?_withoutOrigins]
  congr 2
  cases s.tableCell with
  | none => rfl
  | some i =>
    simp only [Option.bind_some]
    cases p.rows[i.toNat]? <;> rfl

variable {gs} {p : Projection}

/-- Projections that are the same but for origins have the same legal selections. -/
theorem legalSelection_congr {p q : Projection} (h : p.withoutOrigins = q.withoutOrigins)
    (s : Selection) : legalSelection gs p s = legalSelection gs q s := by
  rw [← legalSelection_withoutOrigins, h, legalSelection_withoutOrigins]

/-- A selection stays as it is, or both its ends are made legal. -/
theorem legalSelection_cases (p : Projection) (s : Selection) :
    legalSelection gs p s = s ∨
      legalSelection gs p s = ⟨p.legalize gs s.base, p.legalize gs s.extent, none⟩ := by
  rw [legalSelection]
  split_ifs
  · exact Or.inl rfl
  · exact Or.inl rfl
  · exact Or.inr rfl

/-- A legal selection stays where it is. -/
theorem legalSelection_idem (h : Built gs p) (hm : p.model.SchemaConforms p.source) (s : Selection) :
    legalSelection gs p (legalSelection gs p s) = legalSelection gs p s := by
  rcases @legalSelection_cases gs p s with heq | heq
  · rw [heq, heq]
  · -- Its ends are legal, so that they stay also where they are made legal again.
    rw [heq]
    rcases @legalSelection_cases gs p ⟨p.legalize gs s.base, p.legalize gs s.extent, none⟩ with
      heq' | heq'
    · exact heq'
    · rw [heq', Projection.legalize_idem h hm, Projection.legalize_idem h hm]

end Document

/-! ## Snapshots -/

namespace EditorSnapshot

variable {gs : Graphemes}

/-- A snapshot without the provenance of its rows. -/
def withoutOrigins : EditorSnapshot gs → EditorSnapshot gs
  | .live d => .live d.withoutOrigins
  | .source s => .source s

/-- Two snapshots show the same: they differ in where rows were taken from only. -/
def Shows (snapshot other : EditorSnapshot gs) : Prop :=
  snapshot.withoutOrigins = other.withoutOrigins

namespace Shows

variable {a b c : EditorSnapshot gs}

theorem refl (a : EditorSnapshot gs) : a.Shows a := rfl

theorem symm (h : a.Shows b) : b.Shows a := Eq.symm h

theorem trans (h : a.Shows b) (h' : b.Shows c) : a.Shows c := Eq.trans h h'

/-- What shows the same has the same text. -/
theorem text (h : a.Shows b) : a.text = b.text := by
  have htext : ∀ s : EditorSnapshot gs, s.withoutOrigins.text = s.text := by
    rintro (d | s) <;> rfl
  rw [← htext a, ← htext b]
  exact congrArg EditorSnapshot.text h

/-- What shows the same has the same selection. -/
theorem selection (h : a.Shows b) : a.selection = b.selection := by
  have hselection : ∀ s : EditorSnapshot gs, s.withoutOrigins.selection = s.selection := by
    rintro (d | s) <;> rfl
  rw [← hselection a, ← hselection b]
  exact congrArg EditorSnapshot.selection h

/-- What shows the same is live, or not, alike. -/
theorem isSome_document? (h : a.Shows b) : a.document?.isSome = b.document?.isSome := by
  have hlive : ∀ s : EditorSnapshot gs, s.withoutOrigins.document?.isSome = s.document?.isSome := by
    rintro (d | s) <;> rfl
  rw [← hlive a, ← hlive b]
  exact congrArg (fun s => s.document?.isSome) h

end Shows

variable (setup : EditorSetup)

/-- A snapshot is what opening its source makes: with nothing shown before, and with its selection.
    `forced` is whether source mode is asked for. -/
def Fresh (forced : Bool) (snapshot : EditorSnapshot gs) : Prop :=
  ∃ opened, projectSnapshot gs setup snapshot.text snapshot.selection forced false none none none =
      .ok opened ∧ snapshot.Shows opened

/-- What holds of every snapshot that an editor shows. -/
structure Sound (forced : Bool) (snapshot : EditorSnapshot gs) : Prop where
  live : ∀ d ∈ snapshot.document?, d.Live gs
  fresh : snapshot.Fresh setup forced

end EditorSnapshot

/-! ## Projecting -/

section

variable (gs : Graphemes) (setup : EditorSetup)

/-- The model that is shown of a source, if it is rendered live. -/
def shownModel (text : Text) (forced : Bool) : Except ParseFailure (Option RenderModel) :=
  if forced || !setup.liveLimits.admitsLive (SourceStats.of text) setup.syncLimit then .ok none
  else
    match setup.parse text with
    | .ok model => .ok (if setup.liveLimits.admitsModel model then some model else none)
    | .error failure => if failure = .extractionDeviation then .ok none else .error failure

/-- The snapshot of a model, or of the source as it is without one. -/
def snapshotOf (text : Text) (selected : Selection) (previous : Option Document) :
    Option RenderModel → EditorSnapshot gs
  | none => .source (.of gs text selected)
  | some model => .live (Document.project gs text model selected setup.options previous)

/-- What the parameters of a projection may be: a model that was parsed is that of the source, and
    an admission that was computed its admission. -/
structure ProjectedFrom (text : Text) (parsed : Option RenderModel) (live : Option Bool)
    (previous : Option Document) : Prop where
  parsed : ∀ m ∈ parsed, setup.parse text = .ok m
  live : ∀ l ∈ live, l = setup.liveLimits.admitsLive (SourceStats.of text) setup.syncLimit
  previous : ∀ d ∈ previous, d.Live gs

/-- A text that is projected without hints may reuse a live document. -/
theorem ProjectedFrom.plain (text : Text) {previous : Option Document}
    (h : ∀ d ∈ previous, d.Live gs) : ProjectedFrom gs setup text none none previous :=
  ⟨nofun, nofun, h⟩

theorem ProjectedFrom.anew (text : Text) : ProjectedFrom gs setup text none none none :=
  ⟨nofun, nofun, nofun⟩

variable {gs setup} {text : Text} {parsed : Option RenderModel} {live : Option Bool}
  {previous : Option Document}

/-- A projection is that of the model shown; where deviations are rejected, it may fail. -/
theorem projectSnapshot_eq (h : ProjectedFrom gs setup text parsed live previous)
    (selected : Selection) (forced : Bool) :
    projectSnapshot gs setup text selected forced false parsed live previous =
      (shownModel setup text forced).map (snapshotOf gs setup text selected previous) := by
  have hlive : live.getD (setup.liveLimits.admitsLive (SourceStats.of text) setup.syncLimit) =
      setup.liveLimits.admitsLive (SourceStats.of text) setup.syncLimit := by
    cases live with
    | none => rfl
    | some l => exact h.live l rfl
  have hparsed : parsed.elim (setup.parse text) .ok = setup.parse text := by
    cases parsed with
    | none => rfl
    | some m => exact (h.parsed m rfl).symm
  rw [projectSnapshot, shownModel, hlive, hparsed]
  split
  · rfl
  · cases setup.parse text with
    | ok model =>
      dsimp only
      cases setup.liveLimits.admitsModel model <;> rfl
    | error failure => cases failure <;> rfl

/-- What is projected where it could be rejected is projected without that. -/
theorem projectSnapshot_of_reject {selected : Selection} {forced reject : Bool}
    {next : EditorSnapshot gs}
    (h : projectSnapshot gs setup text selected forced reject parsed live previous = .ok next) :
    projectSnapshot gs setup text selected forced false parsed live previous = .ok next := by
  cases reject with
  | false => exact h
  | true =>
    rw [projectSnapshot] at h ⊢
    split at h
    · next hsource => rw [if_pos hsource, h]
    · next hsource =>
      rw [if_neg hsource]
      cases hparsed : parsed.elim (setup.parse text) .ok with
      | ok model =>
        rw [hparsed] at h
        exact h
      | error failure =>
        rw [hparsed] at h
        simp at h

/-- A selection that was made legal in the source stays as it is. -/
theorem of_selection (text : Text) (selected : Selection) :
    SourceSnapshot.of gs text (SourceSnapshot.of gs text selected).selection =
      SourceSnapshot.of gs text selected := by
  simp only [SourceSnapshot.of, legalSourceOffset_idem]

section

variable (hparse : ∀ text m, setup.parse text = .ok m → m.SchemaConforms text)

include hparse

/-- A model that is shown conforms to the schema. -/
theorem conforms_of_shownModel {forced : Bool} {m : RenderModel}
    (h : shownModel setup text forced = .ok (some m)) : m.SchemaConforms text := by
  rw [shownModel] at h
  split at h
  · cases h
  · split at h
    · next m' hparsed =>
      split_ifs at h
      · cases h
        exact hparse _ _ hparsed
      · cases h
    · split_ifs at h
      cases h

/-- A projection of a model that is shown is built, by whatever reuse. -/
theorem built_of_shownModel {forced : Bool} {m : RenderModel}
    (h : shownModel setup text forced = .ok (some m)) (hprevious : ∀ d ∈ previous, d.Live gs) :
    Built gs (Projection.of gs m text setup.options (previous.map Document.projection)) := by
  have hm := conforms_of_shownModel hparse h
  cases previous with
  | none => exact Built.anew hm.toConforms _
  | some d => exact Built.reusing hm.toConforms _ (hprevious d rfl).built

/-- Whatever rows it takes over, the snapshot of a model shows what the one made anew does. -/
theorem snapshotOf_anew {forced : Bool} {shown : Option RenderModel}
    (hshown : shownModel setup text forced = .ok shown) (hprevious : ∀ d ∈ previous, d.Live gs)
    (selected : Selection) :
    (snapshotOf gs setup text selected previous shown).Shows
      (snapshotOf gs setup text selected none shown) := by
  cases shown with
  | none => exact .refl _
  | some m =>
    have hfresh := (built_of_shownModel hparse hshown hprevious).anew_eq
    exact congrArg EditorSnapshot.live
      (congrArg₂ Document.mk hfresh (Document.legalSelection_congr hfresh selected))

/-- It is the one made anew also from its own selection, and its document is live. -/
theorem snapshotOf_shows {forced : Bool} {shown : Option RenderModel}
    (hshown : shownModel setup text forced = .ok shown) (hprevious : ∀ d ∈ previous, d.Live gs)
    (selected : Selection) :
    (∀ d ∈ (snapshotOf gs setup text selected previous shown).document?, d.Live gs) ∧
      (snapshotOf gs setup text selected previous shown).text = text ∧
      (snapshotOf gs setup text selected previous shown).Shows
        (snapshotOf gs setup text (snapshotOf gs setup text selected previous shown).selection none
          shown) := by
  cases shown with
  | none => exact ⟨nofun, rfl, congrArg EditorSnapshot.source (of_selection text selected).symm⟩
  | some m =>
    have hm := conforms_of_shownModel hparse hshown
    have hbuilt := built_of_shownModel hparse hshown hprevious
    have hfresh := hbuilt.anew_eq
    refine ⟨fun d hd => ?_, rfl, ?_⟩
    · obtain rfl := Option.some_inj.1 hd
      exact ⟨hbuilt, hm⟩
    · refine congrArg EditorSnapshot.live (congrArg₂ Document.mk hfresh ?_)
      exact (Document.legalSelection_idem hbuilt hm selected).symm.trans
        (Document.legalSelection_congr hfresh _)

end

end

namespace EditorSnapshot

variable {gs : Graphemes} {setup : EditorSetup} {forced : Bool} {snapshot next : EditorSnapshot gs}

/-- What is shown is fresh where it is what the shown model makes of its text. -/
theorem fresh_iff : snapshot.Fresh setup forced ↔
    ∃ shown, shownModel setup snapshot.text forced = .ok shown ∧
      snapshot.Shows (snapshotOf gs setup snapshot.text snapshot.selection none shown) := by
  rw [Fresh, projectSnapshot_eq (.anew gs setup _)]
  cases shownModel setup snapshot.text forced with
  | error failure =>
    constructor
    · rintro ⟨opened, hopened, -⟩
      cases hopened
    · rintro ⟨shown, hshown, -⟩
      cases hshown
  | ok shown =>
    constructor
    · rintro ⟨opened, hopened, hshows⟩
      cases hopened
      exact ⟨shown, rfl, hshows⟩
    · rintro ⟨shown', hshown, hshows⟩
      cases hshown
      exact ⟨_, rfl, hshows⟩

/-- A fresh snapshot is made again of its source and selection, whatever rows are taken over. -/
theorem Fresh.again (hparse : ∀ text m, setup.parse text = .ok m → m.SchemaConforms text)
    (h : snapshot.Fresh setup forced) {previous : Option Document}
    (hprevious : ∀ d ∈ previous, d.Live gs) :
    ∃ next, projectSnapshot gs setup snapshot.text snapshot.selection forced false none none previous =
      .ok next ∧ next.Shows snapshot := by
  obtain ⟨shown, hshown, hshows⟩ := fresh_iff.1 h
  refine ⟨snapshotOf gs setup snapshot.text snapshot.selection previous shown, ?_, ?_⟩
  · rw [projectSnapshot_eq (.plain gs setup _ hprevious), hshown]
    rfl
  · exact (snapshotOf_anew hparse hshown hprevious _).trans hshows.symm

/-- The selection of a snapshot that shows what opening its source makes may move. -/
theorem Sound.withSelection (h : snapshot.Sound setup forced) (s : Selection) :
    (snapshot.withSelection s).Sound setup forced := by
  obtain ⟨shown, hshown, hshows⟩ := fresh_iff.1 h.fresh
  cases snapshot with
  | source t =>
    refine ⟨fun d hd => absurd hd (Option.not_mem_none d), fresh_iff.2 ⟨none, ?_,
      congrArg EditorSnapshot.source (of_selection _ _).symm⟩⟩
    cases shown with
    | none => exact hshown
    | some m => cases hshows
  | live d =>
    have hd := h.live d rfl
    cases shown with
    | none => cases hshows
    | some m =>
      have hsame : d.projection.withoutOrigins =
          (Projection.of gs m d.source setup.options none).withoutOrigins :=
        congrArg Document.projection (EditorSnapshot.live.inj hshows)
      refine ⟨fun d' hd' => ?_, fresh_iff.2 ⟨some m, hshown, ?_⟩⟩
      · obtain rfl := Option.some_inj.1 hd'
        exact ⟨hd.built, hd.conforms⟩
      · refine congrArg EditorSnapshot.live (congrArg₂ Document.mk hsame ?_)
        exact (Document.legalSelection_idem hd.built hd.conforms s).symm.trans
          (Document.legalSelection_congr hsame _)

end EditorSnapshot

/-- The snapshots that a projection makes are sound, whatever the rows were taken over from. -/
theorem sound_of_projectSnapshot {gs : Graphemes} {setup : EditorSetup}
    (hparse : ∀ text m, setup.parse text = .ok m → m.SchemaConforms text) {text : Text}
    {parsed : Option RenderModel} {live : Option Bool} {previous : Option Document}
    (hfrom : ProjectedFrom gs setup text parsed live previous) {selected : Selection}
    {forced reject : Bool} {next : EditorSnapshot gs}
    (h : projectSnapshot gs setup text selected forced reject parsed live previous = .ok next) :
    next.text = text ∧ next.Sound setup forced := by
  have heq := projectSnapshot_of_reject h
  rw [projectSnapshot_eq hfrom] at heq
  cases hshown : shownModel setup text forced with
  | error failure =>
    rw [hshown] at heq
    cases heq
  | ok shown =>
    rw [hshown] at heq
    obtain rfl := Except.ok.inj heq
    obtain ⟨hlive, htext, hshows⟩ := snapshotOf_shows hparse hshown hfrom.previous selected
    refine ⟨htext, hlive, EditorSnapshot.fresh_iff.2 ⟨shown, ?_, ?_⟩⟩
    · rw [htext, hshown]
    · rw [htext]
      exact hshows

end Flark
