import Flark.Kernel.Fresh
import Flark.Kernel.SetStyle

/-!
# Read-only documents

A document that is shown without being edited takes whole texts, and keeps the rows of the text
before where it can. A text that is no source, and one that the parser refuses, is shown as it is.
`FlarkReadDocument` in `kernel/read_document.dart`.

* `ReadDocument.Keeps`: what holds of it after any calls;
* `ReadDocument.shows_plain`: after any texts and selections it shows what a new document of the
  last text shows, with the last selection that was made in it.
-/

namespace Flark

/-- `FlarkReadDocument`. -/
structure ReadDocument (gs : Graphemes) where
  snapshot : EditorSnapshot gs
  revision : Nat

/-- A call of a host. -/
inductive ReadCall
  | update (markdown : Text)
  | select (selection : Selection)

namespace ReadDocument

section

variable (gs : Graphemes) (setup : EditorSetup)

/-- What a document is projected with: no delimiter row is edited. -/
def reading : EditorSetup := { setup with options := { editableDelimiterRows := false } }

/-- The snapshot that `update` makes. -/
def shown (markdown : Text) (previous : Option Document) : EditorSnapshot gs :=
  if validateFlarkSource markdown then
    match projectSnapshot gs (reading setup) markdown (.collapsed 0) false false none none
        previous with
    | .ok next => next
    | .error _ => .source (.of gs markdown (.collapsed 0))
  else .source (.of gs markdown (.collapsed 0))

/-- The constructor. -/
def opened (markdown : Text) : ReadDocument gs := ⟨shown gs setup markdown none, 1⟩

variable {gs}

/-- `update`. -/
def update (d : ReadDocument gs) (markdown : Text) : Bool × ReadDocument gs :=
  if d.snapshot.text = markdown then (false, d)
  else (true, ⟨shown gs setup markdown d.snapshot.document?, d.revision + 1⟩)

/-- `select`. -/
def select (d : ReadDocument gs) (selection : Selection) : Bool × ReadDocument gs :=
  let next := d.snapshot.withSelection selection
  if next.selection = d.snapshot.selection then (false, d)
  else (true, ⟨next, d.revision + 1⟩)

/-- A call, with what it returns. -/
def call (d : ReadDocument gs) : ReadCall → Bool × ReadDocument gs
  | .update markdown => d.update setup markdown
  | .select selection => d.select selection

/-- The document after any calls. -/
def run (d : ReadDocument gs) (calls : List ReadCall) : ReadDocument gs :=
  calls.foldl (fun d c => (d.call setup c).2) d

/-- The text after a call, and the last selection that was made in it. -/
def heard : Text × Option Selection → ReadCall → Text × Option Selection
  | (text, selected), .update markdown =>
    if text = markdown then (text, selected) else (markdown, none)
  | (text, _), .select selection => (text, some selection)

/-- What a new document of a text shows, once a selection is made in it. -/
def plain (gs : Graphemes) : Text × Option Selection → EditorSnapshot gs
  | (text, none) => shown gs setup text none
  | (text, some selection) => (shown gs setup text none).withSelection selection

end

/-! ## Selections -/

section

variable {gs : Graphemes} {a b : EditorSnapshot gs}

theorem text_withSelection (a : EditorSnapshot gs) (s : Selection) :
    (a.withSelection s).text = a.text := by
  cases a <;> rfl

/-- The last selection is the one that counts. -/
theorem withSelection_withSelection (a : EditorSnapshot gs) (s s' : Selection) :
    (a.withSelection s).withSelection s' = a.withSelection s' := by
  cases a <;> rfl

theorem shows_withSelection (h : a.Shows b) (s : Selection) :
    (a.withSelection s).Shows (b.withSelection s) := by
  cases a with
  | source t =>
    cases b with
    | source t' =>
      obtain rfl : t = t' := EditorSnapshot.source.inj h
      exact .refl _
    | live d' => cases h
  | live d =>
    cases b with
    | source t' => cases h
    | live d' =>
      have hsame : d.projection.withoutOrigins = d'.projection.withoutOrigins :=
        congrArg Document.projection (EditorSnapshot.live.inj h)
      exact congrArg EditorSnapshot.live
        (congrArg₂ Document.mk hsame (Document.legalSelection_congr hsame s))

/-- A selection that is the one shown changes nothing. -/
theorem withSelection_eq {s : Selection} (h : (a.withSelection s).selection = a.selection) :
    a.withSelection s = a := by
  cases a with
  | live d => exact congrArg (fun s => EditorSnapshot.live { d with selection := s }) h
  | source t =>
    cases t
    exact congrArg EditorSnapshot.source (SourceSnapshot.mk.injEq .. ▸ ⟨rfl, h⟩)

end

variable {gs : Graphemes} {setup : EditorSetup}

section

variable (hparse : ∀ text m, setup.parse text = .ok m → m.SchemaConforms text)

include hparse

/-- Whatever rows it takes over, a text shows what it shows in a new document. -/
theorem shown_shows (text : Text) {previous : Option Document} (h : ∀ d ∈ previous, d.Live gs) :
    (∀ d ∈ (shown gs setup text previous).document?, d.Live gs) ∧
      (shown gs setup text previous).text = text ∧
      (shown gs setup text previous).Shows (shown gs setup text none) := by
  rw [shown, shown, projectSnapshot_eq (.plain gs (reading setup) text h),
    projectSnapshot_eq (.anew gs (reading setup) text)]
  split_ifs
  · cases hmodel : shownModel (reading setup) text false with
    | error failure => exact ⟨nofun, rfl, .refl _⟩
    | ok model =>
      obtain ⟨hlive, htext, -⟩ :=
        @snapshotOf_shows gs (reading setup) text previous hparse _ _ hmodel h (.collapsed 0)
      exact ⟨hlive, htext,
        @snapshotOf_anew gs (reading setup) text previous hparse _ _ hmodel h (.collapsed 0)⟩
  · exact ⟨nofun, rfl, .refl _⟩

/-- What holds of a document after any calls, which were heard as a text and a selection in it. -/
structure Keeps (setup : EditorSetup) (said : Text × Option Selection) (d : ReadDocument gs) :
    Prop where
  live : ∀ l ∈ d.snapshot.document?, l.Live gs
  text : d.snapshot.text = said.1
  shows : d.snapshot.Shows (plain setup gs said)

theorem keeps_opened (text : Text) : (opened gs setup text).Keeps setup (text, none) := by
  obtain ⟨hlive, htext, hshows⟩ := @shown_shows gs setup hparse text none nofun
  exact ⟨hlive, htext, hshows⟩

omit hparse in
theorem Keeps.withSelection {said : Text × Option Selection} {d : ReadDocument gs}
    (h : d.Keeps setup said) (s : Selection) (revision : Nat) :
    (ReadDocument.mk (d.snapshot.withSelection s) revision).Keeps setup (said.1, some s) := by
  refine ⟨fun l hl => ?_, (text_withSelection d.snapshot s).trans h.text, ?_⟩
  · cases hsnapshot : d.snapshot with
    | source t =>
      rw [hsnapshot] at hl
      cases hl
    | live l' =>
      rw [hsnapshot] at hl
      obtain rfl := Option.some_inj.1 hl
      have hlive := h.live l' (by rw [hsnapshot]; rfl)
      exact ⟨hlive.built, hlive.conforms⟩
  · have hshows := shows_withSelection h.shows s
    obtain ⟨text, selected⟩ := said
    cases selected with
    | none => exact hshows
    | some s' =>
      rw [plain, withSelection_withSelection] at hshows
      exact hshows

theorem Keeps.call {said : Text × Option Selection} {d : ReadDocument gs}
    (h : d.Keeps setup said) (c : ReadCall) : (d.call setup c).2.Keeps setup (heard said c) := by
  obtain ⟨text, selected⟩ := said
  obtain rfl : d.snapshot.text = text := h.text
  cases c with
  | update markdown =>
    rw [ReadDocument.call, update, heard]
    split_ifs with hsame
    · exact h
    · obtain ⟨hlive, htext, hshows⟩ := shown_shows hparse markdown h.live
      exact ⟨hlive, htext, hshows⟩
  | select s =>
    have hselected := h.withSelection s
    rw [ReadDocument.call, select]
    split_ifs with hsame
    · -- The selection is the one shown, so that making it changes nothing.
      have hkept := hselected d.revision
      rw [withSelection_eq hsame] at hkept
      exact hkept
    · exact hselected _

theorem Keeps.run {said : Text × Option Selection} {d : ReadDocument gs} (h : d.Keeps setup said)
    (calls : List ReadCall) : (d.run setup calls).Keeps setup (calls.foldl heard said) := by
  induction calls generalizing d said with
  | nil => exact h
  | cons c calls ih => exact ih (h.call hparse c)

omit hparse in
/-- A call that returns false does nothing, and every other one raises the revision. -/
theorem call_cases (d : ReadDocument gs) (c : ReadCall) : d.call setup c = (false, d) ∨
    (d.call setup c).1 = true ∧ (d.call setup c).2.revision = d.revision + 1 := by
  cases c with
  | update markdown =>
    rw [ReadDocument.call, update]
    split_ifs
    · exact Or.inl rfl
    · exact Or.inr ⟨rfl, rfl⟩
  | select s =>
    rw [ReadDocument.call, select]
    split_ifs
    · exact Or.inl rfl
    · exact Or.inr ⟨rfl, rfl⟩

omit hparse in
/-- A revision that is the same is of the same document. -/
theorem run_revision (d : ReadDocument gs) (calls : List ReadCall) :
    d.revision ≤ (d.run setup calls).revision ∧
      ((d.run setup calls).revision = d.revision → d.run setup calls = d) := by
  induction calls generalizing d with
  | nil => exact ⟨le_rfl, fun _ => rfl⟩
  | cons c calls ih =>
    obtain ⟨hle, hsame⟩ := ih (d.call setup c).2
    rcases @call_cases gs setup d c with heq | ⟨-, hrevision⟩
    · rw [heq] at hle hsame
      have hrun : d.run setup (c :: calls) = d.run setup calls := by
        rw [ReadDocument.run, List.foldl_cons, heq]
        rfl
      rw [hrun]
      exact ⟨hle, hsame⟩
    · rw [hrevision] at hle
      exact ⟨Nat.le_of_succ_le hle, fun heq => absurd (heq ▸ hle) (Nat.not_succ_le_self _)⟩

/-- After any texts and selections a document shows what a new document of the last text shows, with
    the last selection that was made in it: whatever rows were taken over, and whether the texts
    between were sources, or ones that the parser takes. Where the revision is that of an earlier
    document, so is all that is shown. -/
theorem shows_plain (text : Text) (calls : List ReadCall) :
    ((opened gs setup text).run setup calls).snapshot.text =
        (calls.foldl heard (text, none)).1 ∧
      ((opened gs setup text).run setup calls).snapshot.Shows
        (plain setup gs (calls.foldl heard (text, none))) ∧
      ∀ first, first <+: calls → ((opened gs setup text).run setup calls).revision =
          ((opened gs setup text).run setup first).revision →
        (opened gs setup text).run setup calls = (opened gs setup text).run setup first := by
  have hkept := (@keeps_opened gs setup hparse text).run hparse calls
  refine ⟨hkept.text, hkept.shows, fun first hfirst heq => ?_⟩
  obtain ⟨rest, rfl⟩ := hfirst
  have hrun : (opened gs setup text).run setup (first ++ rest) =
      ((opened gs setup text).run setup first).run setup rest := List.foldl_append ..
  rw [hrun] at heq ⊢
  exact (run_revision _ rest).2 heq

omit hparse in
theorem shows_plain_inner : ((opened .units Editor.emphasisSetup (Text.ofString "*a *b* c*")).run
    Editor.emphasisSetup [.select (.collapsed 5), .update (Text.ofString "a *b* c"),
      .select (.collapsed 4)]).snapshot.Shows
    ((shown .units Editor.emphasisSetup (Text.ofString "a *b* c") none).withSelection
      (.collapsed 4)) := by
  have hshows := (@shows_plain .units _ Editor.emphasisSetup_conforms
    (Text.ofString "*a *b* c*") [.select (.collapsed 5), .update (Text.ofString "a *b* c"),
      .select (.collapsed 4)]).2.1
  have hheard : [.select (.collapsed 5), .update (Text.ofString "a *b* c"),
      .select (.collapsed 4)].foldl heard (Text.ofString "*a *b* c*", none) =
      (Text.ofString "a *b* c", some (.collapsed 4)) := by
    decide +kernel
  rw [hheard] at hshows
  exact hshows

end

end ReadDocument

end Flark
