import Flark.Kernel.CodeFence
import Flark.Kernel.Editor

/-!
# Searches over spellings

An edit can be written in more than one way. `_commitSpellings` of `kernel/editor.dart` attempts the
spellings of an edit in their order and commits the first that the parser reads as the edit must
read. One of them can be the edit as asked, which alone may cost the edit its admission and may
leave the live tier, where no parse checks it.

* `Editor.reading`: what an attempt finds before its check: the snapshot it would publish, or why
  the parser refuses the source;
* `Editor.attempt_reading`: an attempt commits what it finds where its check holds of that;
* `Editor.commitSpellings`: the search;
* `Editor.seek_spec`: it ends at a spelling after others that were passed over, or passes over all;
* `Editor.commitSpellings_spec`: what a search commits, refuses and leaves as it was.
-/

namespace Flark

open Edits (Spelling)

/-! ## What an attempt finds -/

/-- What becomes of a source: it is refused, or read as a snapshot, with the typed fence that was
    completed in it. -/
inductive Reading (gs : Graphemes)
  | refused (reason : FlarkRejection)
  | found (next : EditorSnapshot gs) (completed : Option CompletedFence)
  deriving DecidableEq

def EditorSnapshot.withSelection {gs : Graphemes} :
    EditorSnapshot gs → Selection → EditorSnapshot gs
  | .live d, s => .live (d.withSelection gs s)
  | .source t, s => .source (t.withSelection s)

namespace Attempt

/-- The check of what is read: a completed fence has one of its own. -/
def check (a : Attempt) : Option CompletedFence → Option (Document → Bool)
  | none => a.accept
  | some c => (a.completed c).accept

/-- What is read fails the check, or there is one that no parse can make. -/
def rejects {gs : Graphemes} (a : Attempt) (completed : Option CompletedFence) :
    EditorSnapshot gs → Bool
  | .live d => (a.check completed).any fun accept => !accept d
  | .source _ => (a.check completed).isSome && !a.acceptSourceMode

end Attempt

namespace Editor

variable {gs : Graphemes} (setup : EditorSetup) (ed : Editor gs)

/-- What a projection finds. -/
def projected (text : Text) (selected : Selection) (parsed : Option RenderModel) (live : Bool)
    (completed : Option CompletedFence) : Except ParseFailure (Reading gs) :=
  match projectSnapshot gs setup text selected ed.forceSourceMode (!ed.sourceMode) parsed
      (some live) ed.snapshot.document? with
  | .error .extractionDeviation => .ok (.refused .extractionDeviation)
  | .error failure => .error failure
  | .ok next => .ok (.found next completed)

/-- A source that is as it was is read already; another one is admitted first. -/
def readAs (text : Text) (selected : Selection) (completed : Option CompletedFence)
    (admitted : Bool → Except ParseFailure (Reading gs)) : Except ParseFailure (Reading gs) :=
  if text = ed.source ∧ ed.cellOrigin = none then
    .ok (.found (ed.snapshot.withSelection selected) completed)
  else
    match admits setup text with
    | .error reason => .ok (.refused reason)
    | .ok live => admitted live

/-- What an attempt finds, before its check. -/
def reading (text : Text) (selected : Selection) (fence : Bool) :
    Except ParseFailure (Reading gs) :=
  ed.readAs setup text selected none fun live =>
    if fence && live then
      match setup.parse text with
      | .error .extractionDeviation => .ok (.refused .extractionDeviation)
      | .error failure => .error failure
      | .ok model =>
        match completeTypedFence text selected.extent model with
        | some c =>
          ed.readAs setup c.source (.collapsed c.caret) (some c) fun live =>
            ed.projected setup c.source (.collapsed c.caret) none live (some c)
        | none => ed.projected setup text selected (some model) live none
    else ed.projected setup text selected none live none

/-- What an attempt comes to that finds `r`. -/
def Judges (a : Attempt) (r : Except ParseFailure (Reading gs))
    (made : Except ParseFailure (Outcome × Editor gs)) : Prop :=
  match r with
  | .error failure => made = .error failure
  | .ok (.refused reason) =>
    made = .ok (.refused reason, { ed with lastRejection := some reason })
  | .ok (.found next completed) =>
    if a.rejects completed next then
      made = .ok (.notKept next.document?.isNone next.document?, ed)
    else ∃ outcome ed', made = .ok (outcome, ed') ∧
      (outcome = .committed ∧ ed'.snapshot = next ∨ outcome = .unchanged)

variable {setup ed}

theorem settles_moved {r : Editor gs × Bool} {next : EditorSnapshot gs}
    (h : r.2 = true → r.1.snapshot = next) : ∃ outcome ed',
      (Except.ok (moved r) : Except ParseFailure (Outcome × Editor gs)) = .ok (outcome, ed') ∧
      (outcome = .committed ∧ ed'.snapshot = next ∨ outcome = .unchanged) := by
  refine ⟨_, _, rfl, ?_⟩
  cases hmoved : r.2 with
  | true => exact Or.inl ⟨rfl, h hmoved⟩
  | false => exact Or.inr rfl

section

-- An attempt made for another one, whose check it has.
variable {a b : Attempt} {completed : Option CompletedFence}
  (hb : ∀ next : EditorSnapshot gs, a.rejects completed next = b.rejects none next)

include hb

theorem judges_reselect :
    ed.Judges a (.ok (.found (ed.snapshot.withSelection b.selection) completed))
      (.ok (ed.reselect b)) := by
  rw [Judges, hb, reselect]
  cases hs : ed.snapshot with
  | live d =>
    simp only [EditorSnapshot.withSelection, Attempt.rejects, Attempt.check]
    split
    · rfl
    · refine settles_moved fun hmoved => ?_
      rw [select] at hmoved ⊢
      split at hmoved
      · cases hmoved
      · next hne => rw [if_neg hne]
  | source t =>
    simp only [EditorSnapshot.withSelection, Attempt.rejects, Attempt.check]
    split
    · rfl
    · refine settles_moved fun hmoved => ?_
      rw [selectSource] at hmoved ⊢
      split at hmoved
      · cases hmoved
      · next hne => rw [if_neg hne]

theorem judges_publish (parsed : Option RenderModel) (live : Bool) :
    ed.Judges a (ed.projected setup b.source b.selection parsed live completed)
      (ed.publish setup b parsed live) := by
  rw [projected, publish]
  cases projectSnapshot gs setup b.source b.selection ed.forceSourceMode (!ed.sourceMode) parsed
      (some live) ed.snapshot.document? with
  | error failure => cases failure <;> rfl
  | ok next =>
    rw [Judges, hb]
    cases next with
    | live d =>
      simp only [Attempt.rejects, Attempt.check]
      split
      · rfl
      · exact ⟨_, _, rfl, Or.inl ⟨rfl, rfl⟩⟩
    | source t =>
      simp only [Attempt.rejects, Attempt.check]
      split
      · rfl
      · exact ⟨_, _, rfl, Or.inl ⟨rfl, rfl⟩⟩

theorem judges_admitting {read : Bool → Except ParseFailure (Reading gs)}
    {admitted : Bool → Except ParseFailure (Outcome × Editor gs)}
    (h : ∀ live, ed.Judges a (read live) (admitted live)) :
    ed.Judges a (ed.readAs setup b.source b.selection completed read)
      (ed.admitting setup b admitted) := by
  rw [readAs, admitting]
  split
  · exact judges_reselect hb
  · cases admits setup b.source with
    | error reason => rfl
    | ok live => exact h live

end

theorem rejects_completed (a : Attempt) (c : CompletedFence) (next : EditorSnapshot gs) :
    a.rejects (some c) next = (a.completed c).rejects none next := by
  cases next <;> rfl

/-- An attempt commits what it finds, where its check holds of that, and otherwise leaves the editor
    as it is but for the reason of a refusal. -/
theorem attempt_reading (a : Attempt) :
    ed.Judges a (ed.reading setup a.source a.selection a.completeTypedFence)
      (ed.attempt setup a) := by
  refine judges_admitting (fun _ => rfl) fun live => ?_
  split
  · cases setup.parse a.source with
    | error failure => cases failure <;> rfl
    | ok model =>
      cases hc : completeTypedFence a.source a.selection.extent model with
      | none =>
        simp only [hc]
        exact judges_publish (fun _ => rfl) _ _
      | some c =>
        simp only [hc]
        have hrejects := @rejects_completed gs a c
        exact judges_admitting hrejects fun live => judges_publish hrejects none live
  · exact judges_publish (fun _ => rfl) _ _

end Editor

/-! ## The search -/

/-- `_Tier`. -/
inductive Tier
  | asAsked
  | firstPast
  deriving DecidableEq, Repr

/-- What `_commitSpellings` is asked, beside the spellings. -/
structure Search where
  keep : Document → Spelling → Edits → Bool
  coalesce : Bool
  tier : Tier := .asAsked
  completeTypedFence : Bool := false
  atLimit : Option Spelling := none

namespace Search

variable (q : Search) (source : Text) (s : Spelling)

/-- The attempt of a spelling. -/
def spelled : Attempt where
  source := s.edits.apply source
  selection := s.selection
  coalesce := q.coalesce
  completeTypedFence := q.completeTypedFence
  pending := s.pending
  accept := some fun next => q.keep next s s.edits
  acceptCompleted := some fun next at_ length =>
    q.keep next s (s.edits.withInsertion at_ (next.source.substring at_ (at_ + length)))
  acceptSourceMode := q.tier == .asAsked && s.asAsked

/-- The attempt of the first spelling past the live tier, in source mode. -/
def enters : Attempt where
  source := s.edits.apply source
  selection := s.selection
  coalesce := q.coalesce
  completeTypedFence := q.completeTypedFence
  pending := s.pending
  accept := some fun _ => false
  acceptCompleted := some fun _ _ _ => false
  acceptSourceMode := true

/-- The attempt of `atLimit`, unchecked. -/
def limited : Attempt where
  source := s.edits.apply source
  selection := s.selection
  coalesce := q.coalesce
  pending := s.pending

end Search

namespace Editor

variable {gs : Graphemes} (setup : EditorSetup) (q : Search)

/-- The end of `_commitSpellings`, where no spelling was committed or refused. -/
def lastResort (past : Option Spelling) (passedOver : Bool) (ed : Editor gs) :
    Except ParseFailure (Outcome × Editor gs) :=
  if q.tier = .firstPast then
    match q.atLimit, passedOver, past with
    | some s, true, _ => ed.attempt setup (q.limited ed.source s)
    | _, _, some s => ed.attempt setup (q.enters ed.source s)
    | _, _, none => .ok (.notKept passedOver none, ed)
  else .ok (.notKept passedOver none, ed)

/-- The loop of `_commitSpellings`. A refusal the search passes over is no outcome of the call. -/
def seek (before : Option FlarkRejection) :
    (past : Option Spelling) → (passedOver : Bool) → List Spelling → Editor gs →
      Except ParseFailure (Outcome × Editor gs)
  | past, passedOver, [], ed => ed.lastResort setup q past passedOver
  | past, passedOver, s :: rest, ed =>
    match ed.attempt setup (q.spelled ed.source s) with
    | .error failure => .error failure
    | .ok (.notKept true _, ed') =>
      seek before (past.or (some s)) (passedOver || !s.asAsked) rest ed'
    | .ok (.notKept false _, ed') => seek before past passedOver rest ed'
    | .ok (.refused reason, ed') =>
      if s.asAsked then .ok (.refused reason, ed')
      else seek before past true rest { ed' with lastRejection := before }
    | .ok (outcome, ed') => .ok (outcome, ed')

/-- `_commitSpellings`. -/
def commitSpellings (spellings : List Spelling) (ed : Editor gs) :
    Except ParseFailure (Outcome × Editor gs) :=
  seek setup q ed.lastRejection none false spellings ed

/-! ## What a search commits -/

variable (ed : Editor gs) (s : Spelling)

/-- What the attempt of a spelling finds. -/
def finds : Except ParseFailure (Reading gs) :=
  ed.reading setup (s.edits.apply ed.source) s.selection q.completeTypedFence

/-- What is asked of the document that is read: with a typed fence completed, the edits have it. -/
def keeps (d : Document) : Option CompletedFence → Bool
  | none => q.keep d s s.edits
  | some c => q.keep d s (s.edits.withInsertion c.at_
      (d.source.substring c.at_ (c.at_ + (c.source.length - (s.edits.apply ed.source).length))))

/-- The spelling may leave the live tier unchecked while the search runs. -/
def mayLeave : Bool := q.tier == .asAsked && s.asAsked

/-- A spelling past the live tier. -/
def pastTier : Bool :=
  match ed.finds setup q s with
  | .ok (.found (.source _) _) => true
  | _ => false

/-- A respelling at a limit: it is past the live tier, or the parser refuses it. -/
def atLimit : Bool :=
  !s.asAsked &&
    match ed.finds setup q s with
    | .ok (.found (.source _) _) => true
    | .ok (.refused _) => true
    | _ => false

/-- A spelling that the search passes over: it is read and not kept, past the live tier where it may
    not leave it, or a respelling that the parser refuses. -/
inductive Passes : Prop
  | notKept (d : Document) (c : Option CompletedFence)
      (read : ed.finds setup q s = .ok (.found (.live d) c)) (keep : ed.keeps q s d c = false)
  | past (t : SourceSnapshot gs) (c : Option CompletedFence)
      (read : ed.finds setup q s = .ok (.found (.source t) c)) (tier : mayLeave q s = false)
  | refused (reason : FlarkRejection)
      (read : ed.finds setup q s = .ok (.refused reason)) (asAsked : s.asAsked = false)

/-- A spelling that ends the search with an outcome: the parser refuses it as it was asked, or what
    it is read as is kept, or may leave the live tier. -/
inductive Ends : Outcome → Editor gs → Prop
  | refused (reason : FlarkRejection) (read : ed.finds setup q s = .ok (.refused reason))
      (asAsked : s.asAsked = true) :
      Ends (.refused reason) { ed with lastRejection := some reason }
  | kept (d : Document) (c : Option CompletedFence)
      (read : ed.finds setup q s = .ok (.found (.live d) c)) (keep : ed.keeps q s d c = true)
      {outcome : Outcome} {ed' : Editor gs}
      (made : outcome = .committed ∧ ed'.snapshot = .live d ∨ outcome = .unchanged) :
      Ends outcome ed'
  | left (t : SourceSnapshot gs) (c : Option CompletedFence)
      (read : ed.finds setup q s = .ok (.found (.source t) c)) (tier : mayLeave q s = true)
      {outcome : Outcome} {ed' : Editor gs}
      (made : outcome = .committed ∧ ed'.snapshot = .source t ∨ outcome = .unchanged) :
      Ends outcome ed'

variable {setup q ed s}

theorem rejects_live (c : Option CompletedFence) (d : Document) :
    (q.spelled ed.source s).rejects c (EditorSnapshot.live d : EditorSnapshot gs) =
      !ed.keeps q s d c := by
  cases c <;> rfl

theorem rejects_source (c : Option CompletedFence) (t : SourceSnapshot gs) :
    (q.spelled ed.source s).rejects c (.source t) = !mayLeave q s := by
  cases c <;> rfl

/-- The attempt of a spelling: the search goes on with the editor as it was, or ends. -/
theorem attempt_spelled :
    match ed.attempt setup (q.spelled ed.source s) with
    | .error _ => True
    | .ok (.notKept true _, ed') => ed' = ed ∧ ed.Passes setup q s ∧ ed.pastTier setup q s = true
    | .ok (.notKept false _, ed') => ed' = ed ∧ ed.Passes setup q s ∧
        ed.pastTier setup q s = false ∧ ed.atLimit setup q s = false
    | .ok (.refused reason, ed') => ed' = { ed with lastRejection := some reason } ∧
        ed.finds setup q s = .ok (.refused reason)
    | .ok (outcome, ed') => ed.Ends setup q s outcome ed' := by
  -- By what the spelling is read as: an error, a refusal, a live document that is kept or not, or
  -- source past the tier that may be left for or not.
  have h := @attempt_reading _ setup ed (q.spelled ed.source s)
  change ed.Judges _ (ed.finds setup q s) _ at h
  cases hread : ed.finds setup q s with
  | error failure =>
    rw [hread, Judges] at h
    rw [h]
    trivial
  | ok r =>
    rw [hread] at h
    cases r with
    | refused reason =>
      rw [Judges] at h
      rw [h]
      exact ⟨rfl, rfl⟩
    | found next c =>
      cases next with
      | live d =>
        have hrejects := @rejects_live gs q ed s c d
        cases hkeep : ed.keeps q s d c with
        | false =>
          rw [hkeep, Bool.not_false] at hrejects
          rw [Judges, if_pos hrejects] at h
          rw [h]
          refine ⟨rfl, .notKept d c hread hkeep, ?_, ?_⟩
          · rw [pastTier, hread]
          · rw [atLimit, hread, Bool.and_false]
        | true =>
          rw [hkeep, Bool.not_true] at hrejects
          rw [Judges, if_neg (ne_true_of_eq_false hrejects)] at h
          obtain ⟨outcome, ed', hmade, hend⟩ := h
          rw [hmade]
          rcases hend with ⟨rfl, hnext⟩ | rfl
          · exact .kept d c hread hkeep (Or.inl ⟨rfl, hnext⟩)
          · exact .kept d c hread hkeep (Or.inr rfl)
      | source t =>
        have hrejects := @rejects_source gs q ed s c t
        cases hleave : mayLeave q s with
        | false =>
          rw [hleave, Bool.not_false] at hrejects
          rw [Judges, if_pos hrejects] at h
          rw [h]
          refine ⟨rfl, .past t c hread hleave, ?_⟩
          rw [pastTier, hread]
        | true =>
          rw [hleave, Bool.not_true] at hrejects
          rw [Judges, if_neg (ne_true_of_eq_false hrejects)] at h
          obtain ⟨outcome, ed', hmade, hend⟩ := h
          rw [hmade]
          rcases hend with ⟨rfl, hnext⟩ | rfl
          · exact .left t c hread hleave (Or.inl ⟨rfl, hnext⟩)
          · exact .left t c hread hleave (Or.inr rfl)

theorem Passes.atLimit_of_past (h : ed.Passes setup q s) (hpast : ed.pastTier setup q s = true) :
    ed.atLimit setup q s = !s.asAsked := by
  cases h with
  | notKept d c hread => simp [pastTier, hread] at hpast
  | past t c hread => rw [atLimit, hread, Bool.and_true]
  | refused reason hread => simp [pastTier, hread] at hpast

/-- The search ends at a spelling behind others that it passed over, or passes over all of them and
    comes to its last resort with the first spelling past the live tier. -/
theorem seek_spec {before : Option FlarkRejection} (hbefore : ed.lastRejection = before)
    {spellings : List Spelling} {past : Option Spelling} {passedOver : Bool}
    {outcome : Outcome} {ed' : Editor gs}
    (h : seek setup q before past passedOver spellings ed = .ok (outcome, ed')) :
    (∃ first s rest, spellings = first ++ s :: rest ∧ (∀ t ∈ first, ed.Passes setup q t) ∧
      ed.Ends setup q s outcome ed') ∨
    ((∀ t ∈ spellings, ed.Passes setup q t) ∧
      ed.lastResort setup q (past.or (spellings.find? (ed.pastTier setup q)))
        (passedOver || spellings.any (ed.atLimit setup q)) = .ok (outcome, ed')) := by
  induction spellings generalizing past passedOver with
  | nil =>
    rw [seek] at h
    rw [List.find?_nil, Option.or_none, List.any_nil, Bool.or_false]
    exact Or.inr ⟨fun _ ht => absurd ht List.not_mem_nil, h⟩
  | cons s rest ih =>
    have hs := @attempt_spelled gs setup q ed s
    -- A spelling that is passed over is the first of those before the end.
    have hgo {past' : Option Spelling} {passedOver' : Bool} (hpasses : ed.Passes setup q s)
        (hpast : past'.or (rest.find? (ed.pastTier setup q)) =
          past.or ((s :: rest).find? (ed.pastTier setup q)))
        (hover : (passedOver' || rest.any (ed.atLimit setup q)) =
          (passedOver || (s :: rest).any (ed.atLimit setup q)))
        (hrest : seek setup q before past' passedOver' rest ed = .ok (outcome, ed')) :
        (∃ first s' rest', s :: rest = first ++ s' :: rest' ∧ (∀ t ∈ first, ed.Passes setup q t) ∧
          ed.Ends setup q s' outcome ed') ∨
        ((∀ t ∈ s :: rest, ed.Passes setup q t) ∧
          ed.lastResort setup q (past.or ((s :: rest).find? (ed.pastTier setup q)))
            (passedOver || (s :: rest).any (ed.atLimit setup q)) = .ok (outcome, ed')) := by
      rcases ih hrest with ⟨first, s', rest', rfl, hfirst, hends⟩ | ⟨hrest, hlast⟩
      · exact Or.inl ⟨s :: first, s', rest', rfl, List.forall_mem_cons.2 ⟨hpasses, hfirst⟩, hends⟩
      · rw [← hpast, ← hover]
        exact Or.inr ⟨List.forall_mem_cons.2 ⟨hpasses, hrest⟩, hlast⟩
    rw [seek] at h
    split at h
    · cases h
    · next heq =>
      rw [heq] at hs
      obtain ⟨rfl, hpasses, htier⟩ := hs
      refine hgo hpasses ?_ ?_ h
      · rw [List.find?_cons_of_pos htier, Option.or_assoc, Option.some_or]
      · rw [List.any_cons, hpasses.atLimit_of_past htier, Bool.or_assoc]
    · next heq =>
      rw [heq] at hs
      obtain ⟨rfl, hpasses, htier, hlimit⟩ := hs
      refine hgo hpasses ?_ ?_ h
      · rw [List.find?_cons_of_neg (ne_true_of_eq_false htier)]
      · rw [List.any_cons, hlimit, Bool.false_or]
    · next reason _ heq =>
      rw [heq] at hs
      obtain ⟨rfl, hread⟩ := hs
      split at h
      · next hasked =>
        cases h
        exact Or.inl ⟨[], s, rest, rfl, fun _ ht => absurd ht List.not_mem_nil,
          .refused reason hread hasked⟩
      · next hasked =>
        have hask : s.asAsked = false := eq_false_of_ne_true hasked
        have htier : ed.pastTier setup q s = false := by rw [pastTier, hread]
        have hlimit : ed.atLimit setup q s = true := by rw [atLimit, hread, hask]; rfl
        rw [← hbefore] at h
        refine hgo (.refused reason hread hask) ?_ ?_ (by rw [← hbefore]; exact h)
        · rw [List.find?_cons_of_neg (ne_true_of_eq_false htier)]
        · rw [List.any_cons, hlimit, Bool.true_or, Bool.or_true]
    · next hover hkept hrefused heq =>
      cases h
      rw [heq] at hs
      refine Or.inl ⟨[], s, rest, rfl, fun _ ht => absurd ht List.not_mem_nil, ?_⟩
      cases outcome with
      | committed => exact hs
      | unchanged => exact hs
      | notKept passedOver read =>
        cases passedOver with
        | true => exact (hover _ rfl).elim
        | false => exact (hkept _ rfl).elim
      | refused reason => exact (hrefused _ rfl).elim

/-- The attempt of `atLimit` is made with no check. -/
theorem attempt_limited {outcome : Outcome} {ed' : Editor gs}
    (h : ed.attempt setup (q.limited ed.source s) = .ok (outcome, ed')) :
    (∃ reason, ed.reading setup (s.edits.apply ed.source) s.selection false =
      .ok (.refused reason) ∧ outcome = .refused reason) ∨
    ∃ next c, ed.reading setup (s.edits.apply ed.source) s.selection false = .ok (.found next c) ∧
      (outcome = .committed ∧ ed'.snapshot = next ∨ outcome = .unchanged) := by
  have hjudges := @attempt_reading _ setup ed (q.limited ed.source s)
  change ed.Judges _ (ed.reading setup (s.edits.apply ed.source) s.selection false) _ at hjudges
  rw [h] at hjudges
  cases hread : ed.reading setup (s.edits.apply ed.source) s.selection false with
  | error failure =>
    rw [hread] at hjudges
    cases hjudges
  | ok r =>
    rw [hread] at hjudges
    cases r with
    | refused reason =>
      cases hjudges
      exact Or.inl ⟨reason, rfl, rfl⟩
    | found next c =>
      have hrejects : (q.limited ed.source s).rejects c next = false := by
        cases next <;> cases c <;> rfl
      rw [Judges, if_neg (ne_true_of_eq_false hrejects)] at hjudges
      obtain ⟨_, _, hmade, hend⟩ := hjudges
      cases hmade
      exact Or.inr ⟨next, c, rfl, hend⟩

/-- The attempt of a spelling past the live tier enters source mode. -/
theorem attempt_enters (hpast : ed.pastTier setup q s = true) {outcome : Outcome}
    {ed' : Editor gs} (h : ed.attempt setup (q.enters ed.source s) = .ok (outcome, ed')) :
    ∃ t c, ed.finds setup q s = .ok (.found (.source t) c) ∧
      (outcome = .committed ∧ ed'.snapshot = .source t ∨ outcome = .unchanged) := by
  have hjudges := @attempt_reading _ setup ed (q.enters ed.source s)
  change ed.Judges _ (ed.finds setup q s) _ at hjudges
  rw [pastTier] at hpast
  split at hpast
  · next t c hread =>
    have hrejects : (q.enters ed.source s).rejects c (EditorSnapshot.source t : EditorSnapshot gs) =
        false := by
      cases c <;> rfl
    rw [hread, h, Judges, if_neg (ne_true_of_eq_false hrejects)] at hjudges
    obtain ⟨_, _, hmade, hend⟩ := hjudges
    cases hmade
    exact ⟨t, c, hread, hend⟩
  · cases hpast

/-- What the last resort comes to. -/
theorem lastResort_spec {spellings : List Spelling} {passedOver : Bool} {outcome : Outcome}
    {ed' : Editor gs}
    (h : ed.lastResort setup q (spellings.find? (ed.pastTier setup q)) passedOver =
      .ok (outcome, ed')) :
    (outcome = .notKept passedOver none ∧ ed' = ed) ∨
    (q.tier = .firstPast ∧
      ((passedOver = true ∧ ∃ s ∈ q.atLimit,
        ed.attempt setup (q.limited ed.source s) = .ok (outcome, ed')) ∨
      ((q.atLimit = none ∨ passedOver = false) ∧ ∃ s,
        spellings.find? (ed.pastTier setup q) = some s ∧
        ed.attempt setup (q.enters ed.source s) = .ok (outcome, ed')))) := by
  -- Only the other tier has one: past the limit `atLimit`, and else the first spelling past the
  -- live tier.
  rw [lastResort.eq_def] at h
  split at h
  · next htier =>
    cases hpast : spellings.find? (ed.pastTier setup q) with
    | none =>
      rw [hpast] at h
      cases hlimit : q.atLimit with
      | none =>
        rw [hlimit] at h
        cases h
        exact Or.inl ⟨rfl, rfl⟩
      | some s =>
        rw [hlimit] at h
        cases passedOver with
        | false =>
          cases h
          exact Or.inl ⟨rfl, rfl⟩
        | true => exact Or.inr ⟨htier, Or.inl ⟨rfl, s, rfl, h⟩⟩
    | some p =>
      rw [hpast] at h
      cases hlimit : q.atLimit with
      | none =>
        rw [hlimit] at h
        exact Or.inr ⟨htier, Or.inr ⟨Or.inl rfl, p, rfl, h⟩⟩
      | some s =>
        rw [hlimit] at h
        cases passedOver with
        | false => exact Or.inr ⟨htier, Or.inr ⟨Or.inr rfl, p, rfl, h⟩⟩
        | true => exact Or.inr ⟨htier, Or.inl ⟨rfl, s, rfl, h⟩⟩
  · cases h
    exact Or.inl ⟨rfl, rfl⟩

/-- A spelling that the parser reads and the search keeps is committed, behind others that it passed
    over. -/
def CommitsKept (setup : EditorSetup) (q : Search) (ed : Editor gs) (spellings : List Spelling)
    (ed' : Editor gs) : Prop :=
  ∃ first s rest d c, spellings = first ++ s :: rest ∧ (∀ t ∈ first, ed.Passes setup q t) ∧
    ed.finds setup q s = .ok (.found (.live d) c) ∧ ed.keeps q s d c = true ∧
    ed'.snapshot = .live d

/-- The edit as asked is committed past the live tier, behind spellings that the search passed
    over. -/
def CommitsAsAsked (setup : EditorSetup) (q : Search) (ed : Editor gs) (spellings : List Spelling)
    (ed' : Editor gs) : Prop :=
  ∃ first s rest t c, spellings = first ++ s :: rest ∧ (∀ t ∈ first, ed.Passes setup q t) ∧
    ed.finds setup q s = .ok (.found (.source t) c) ∧ s.asAsked = true ∧ ed'.snapshot = .source t

/-- The first spelling past the live tier is committed there, or before it `atLimit` where a
    respelling was passed over at a limit. -/
def CommitsLast (setup : EditorSetup) (q : Search) (ed : Editor gs) (spellings : List Spelling)
    (ed' : Editor gs) : Prop :=
  (∃ s ∈ q.atLimit, (∃ t ∈ spellings, ed.atLimit setup q t = true) ∧ ∃ next c,
    ed.reading setup (s.edits.apply ed.source) s.selection false = .ok (.found next c) ∧
    ed'.snapshot = next) ∨
  ((q.atLimit = none ∨ ∀ t ∈ spellings, ed.atLimit setup q t = false) ∧
    ∃ first s rest t c, spellings = first ++ s :: rest ∧
      (∀ u ∈ first, ed.pastTier setup q u = false) ∧
      ed.finds setup q s = .ok (.found (.source t) c) ∧ ed'.snapshot = .source t)

/-- What a search commits: as asked, a spelling that is read and kept or the edit as asked past the
    live tier; with the other tier, once every spelling was passed over, the first one past the
    live tier or `atLimit`. It refuses an edit only where the parser refuses it as it was asked, or
    `atLimit`, and an edit that is not kept leaves the editor as it was. -/
theorem commitSpellings_spec {spellings : List Spelling} {outcome : Outcome} {ed' : Editor gs}
    (h : ed.commitSpellings setup q spellings = .ok (outcome, ed')) :
    (q.tier = .asAsked → outcome = .committed →
      ed.CommitsKept setup q spellings ed' ∨ ed.CommitsAsAsked setup q spellings ed') ∧
    (∀ reason, outcome = .refused reason →
      (∃ s ∈ spellings, s.asAsked = true ∧ ed.finds setup q s = .ok (.refused reason)) ∨
      (q.tier = .firstPast ∧ ∃ s ∈ q.atLimit,
        ed.reading setup (s.edits.apply ed.source) s.selection false = .ok (.refused reason))) ∧
    (q.tier = .firstPast → outcome = .committed → ed.CommitsKept setup q spellings ed' ∨
      ((∀ t ∈ spellings, ed.Passes setup q t) ∧ ed.CommitsLast setup q spellings ed')) ∧
    ∀ passedOver read, outcome = .notKept passedOver read → ed' = ed := by
  rw [commitSpellings] at h
  rcases seek_spec rfl h with ⟨first, s, rest, rfl, hfirst, hends⟩ | ⟨hpasses, hlast⟩
  · -- A spelling ended the search.
    cases hends with
    | refused reason hread hasked =>
      refine ⟨fun _ h => ?_, fun r hr => ?_, fun _ h => ?_, fun _ _ h => ?_⟩
      · cases h
      · cases hr
        exact Or.inl ⟨s, List.mem_append_cons_self, hasked, hread⟩
      · cases h
      · cases h
    | kept d c hread hkeep hmade =>
      rcases hmade with ⟨rfl, hnext⟩ | rfl
      · have hkept : ed.CommitsKept setup q (first ++ s :: rest) ed' :=
          ⟨first, s, rest, d, c, rfl, hfirst, hread, hkeep, hnext⟩
        refine ⟨fun _ _ => Or.inl hkept, fun _ h => ?_, fun _ _ => Or.inl hkept, fun _ _ h => ?_⟩
        · cases h
        · cases h
      · refine ⟨fun _ h => ?_, fun _ h => ?_, fun _ h => ?_, fun _ _ h => ?_⟩ <;> cases h
    | left t c hread hleave hmade =>
      rw [mayLeave, Bool.and_eq_true, beq_iff_eq] at hleave
      rcases hmade with ⟨rfl, hnext⟩ | rfl
      · refine ⟨fun _ _ => Or.inr ⟨first, s, rest, t, c, rfl, hfirst, hread, hleave.2, hnext⟩,
          fun _ h => ?_, fun htier _ => ?_, fun _ _ h => ?_⟩
        · cases h
        · rw [hleave.1] at htier
          cases htier
        · cases h
      · refine ⟨fun _ h => ?_, fun _ h => ?_, fun _ h => ?_, fun _ _ h => ?_⟩ <;> cases h
  -- Every spelling was passed over.
  · rw [Option.none_or, Bool.false_or] at hlast
    rcases lastResort_spec hlast with ⟨rfl, rfl⟩ | ⟨htier, hlimit | ⟨hlimit, s, hfirst, hmade⟩⟩
    · refine ⟨fun _ h => ?_, fun _ h => ?_, fun _ h => ?_, fun _ _ _ => rfl⟩ <;> cases h
    · obtain ⟨hany, s, hs, hmade⟩ := hlimit
      rw [List.any_eq_true] at hany
      have hother : q.tier ≠ .asAsked := fun h => by
        rw [htier] at h
        cases h
      rcases attempt_limited hmade with ⟨reason, hread, rfl⟩ | ⟨next, c, hread, ⟨rfl, hnext⟩ | rfl⟩
      · refine ⟨fun h _ => absurd h hother, fun r hr => ?_, fun _ h => ?_, fun _ _ h => ?_⟩
        · cases hr
          exact Or.inr ⟨htier, s, hs, hread⟩
        · cases h
        · cases h
      · refine ⟨fun h _ => absurd h hother, fun _ h => ?_,
          fun _ _ => Or.inr ⟨hpasses, Or.inl ⟨s, hs, hany, next, c, hread, hnext⟩⟩, fun _ _ h => ?_⟩
        · cases h
        · cases h
      · refine ⟨fun _ h => ?_, fun _ h => ?_, fun _ h => ?_, fun _ _ h => ?_⟩ <;> cases h
    · have hlimits : q.atLimit = none ∨ ∀ t ∈ spellings, ed.atLimit setup q t = false := by
        refine hlimit.imp_right fun hnone t ht => ?_
        exact eq_false_of_ne_true fun h => Bool.eq_false_iff.1 hnone (List.any_eq_true.2 ⟨t, ht, h⟩)
      obtain ⟨hpast, first, rest, rfl, hbefore⟩ := List.find?_eq_some_iff_append.1 hfirst
      obtain ⟨t, c, hread, ⟨rfl, hnext⟩ | rfl⟩ := attempt_enters hpast hmade
      · refine ⟨fun h _ => ?_, fun _ h => ?_, fun _ _ => Or.inr ⟨hpasses, Or.inr ⟨hlimits, first, s,
          rest, t, c, rfl, fun u hu => ?_, hread, hnext⟩⟩, fun _ _ h => ?_⟩
        · rw [htier] at h
          cases h
        · cases h
        · simpa using hbefore u hu
        · cases h
      · refine ⟨fun _ h => ?_, fun _ h => ?_, fun _ h => ?_, fun _ _ h => ?_⟩ <;> cases h

/-- A model of a line of two backticks: a paragraph that shows them. -/
def twoTicks : RenderModel where
  bytes := []
  words :=
    [0x354B4C46, 5, 2, 2, 1, 2, 1, 1, 0, 0, 0, 0] ++ [0] ++
    [0, 0xFFFFFFFF, 0, 2, 0, 1, 0, 0, 0, 0xFFFFFFFF] ++
    [1, 0, 0, 2, 0, 1, 0, 0, 0, 0xFFFFFFFF] ++ [0, 2, 0, 0] ++ [0, 2, 0, 1]

/-- A model of a line of three: the opener of a fenced block. -/
def threeTicks : RenderModel where
  bytes := []
  words :=
    [0x354B4C46, 5, 3, 3, 1, 2, 0, 0, 0, 0, 2, 0] ++ [0] ++
    [0, 0xFFFFFFFF, 0, 3, 0, 1, 0, 0, 0, 0xFFFFFFFF] ++
    [0x103, 0, 0, 3, 0, 1, 0, 0, 3, 0] ++ [3, 3]

/-- A live document has one line. -/
def tickSetup : EditorSetup where
  parse text :=
    if text = Text.ofString "``" then .ok twoTicks
    else if text = Text.ofString "```" then .ok threeTicks
    else .error .other
  liveLimits := { lines := 1 }
  caps := History.defaultCaps

/-- The editor of two backticks, the caret behind them. -/
def ticks : Editor .units where
  snapshot :=
    .live ⟨Projection.of .units twoTicks (Text.ofString "``") {} none, .collapsed 2⟩

/-- A text typed at the caret. -/
def typedAt (text : Text) (asAsked : Bool) : Spelling :=
  ⟨⟨[⟨2, 2, text⟩], rfl⟩, .collapsed (2 + text.length), none, asAsked⟩

/-- The search keeps nothing that it reads. -/
def tickSearch : Search where
  keep _ _ _ := false
  coalesce := true
  completeTypedFence := true

theorem tickSearch_run : ∃ ed' : Editor .units,
    ticks.commitSpellings tickSetup tickSearch [typedAt [0x60] true] = .ok (.committed, ed') := by
  have hrun : (ticks.commitSpellings tickSetup tickSearch [typedAt [0x60] true]).toOption.any
      (fun r => r.1 == .committed) = true := by
    decide
  cases h : ticks.commitSpellings tickSetup tickSearch [typedAt [0x60] true] with
  | error failure =>
    rw [h] at hrun
    cases hrun
  | ok r =>
    rw [h] at hrun
    exact ⟨r.2, congrArg Except.ok (Prod.ext (eq_of_beq hrun) rfl)⟩

/-- The third backtick, as asked: the fence that completes it has too many lines to be live. -/
theorem commitSpellings_spec_tick : ∃ ed' : Editor .units,
    ticks.commitSpellings tickSetup tickSearch [typedAt [0x60] true] = .ok (.committed, ed') ∧
    (ticks.CommitsKept tickSetup tickSearch [typedAt [0x60] true] ed' ∨
      ticks.CommitsAsAsked tickSetup tickSearch [typedAt [0x60] true] ed') := by
  obtain ⟨ed', hrun⟩ := tickSearch_run
  exact ⟨ed', hrun, (commitSpellings_spec hrun).1 rfl rfl⟩

/-- The edit as asked is committed though its own source is live and the search keeps nothing; and
    `atLimit` is refused though no edit as asked was. -/
theorem not_commitSpellings_own :
    (∃ ed' : Editor .units,
      ticks.commitSpellings tickSetup tickSearch [typedAt [0x60] true] = .ok (.committed, ed')) ∧
    (∀ d c, ticks.keeps tickSearch (typedAt [0x60] true) d c = false) ∧
    (admits tickSetup ((typedAt [0x60] true).edits.apply ticks.source)).toOption = some true ∧
    (∃ d, projectSnapshot .units tickSetup ((typedAt [0x60] true).edits.apply ticks.source)
      (typedAt [0x60] true).selection false true none (some true) none = .ok (.live d)) ∧
    (typedAt [0x0D] false).asAsked = false ∧
    (ticks.commitSpellings tickSetup
      { tickSearch with tier := .firstPast, atLimit := some (typedAt [0x0D] false) }
      [typedAt [0x0D] false]).toOption.map Prod.fst = some (.refused .invalidSource) := by
  refine ⟨?_, fun d c => ?_, by decide, ⟨_, rfl⟩, rfl, by decide⟩
  · exact tickSearch_run
  · cases c <;> rfl

end Editor

end Flark
