import Flark.Input.TextEditingValue
import Flark.Kernel.SourceMode

/-!
# The platform's window

The part of the source that a platform's input method is sent (`InputContext` of
`flark_flutter/lib/src/input_context.dart`). A window is kept while the selection is well within
it, and moved with the growth of the text; otherwise one is made anew around the selection.

* `InputContext.of`: the window of a value, with the window before;
* `InputContext.windows_sound`: when the windows of all values hold the selection and cut no line
  break and no code point.
-/

namespace Flark

/-- `InputContext`. -/
structure InputContext where
  source : TextEditingValue
  start : Int
  stop : Int
  rebased : Bool := false
  deriving DecidableEq

namespace TextEditingValue

variable (v : TextEditingValue)

/-- The first offset that a window of the value has to hold. -/
def first : Int :=
  if v.composing.isValid then min v.selection.start v.composing.start else v.selection.start

/-- The last one. -/
def last : Int :=
  if v.composing.isValid then max v.selection.stop v.composing.stop else v.selection.stop

/-- Whether the platform composes. -/
def isComposing : Bool := v.composing.isValid && !v.composing.isCollapsed

end TextEditingValue

namespace Graphemes

variable (gs : Graphemes)

/-- `CharacterRange.at(t, i).stringBeforeLength`: the start of the character that has `i` strictly
    inside, else `i`. -/
def charStart (t : Text) (i : Nat) : Nat := ((gs.rangeAt t i).map Prod.fst).getD i

/-- `stringBeforeLength + current.length` of `CharacterRange.at(t, i)`: its end. -/
def charStop (t : Text) (i : Nat) : Nat := ((gs.rangeAt t i).map Prod.snd).getD i

end Graphemes

namespace InputContext

/-- Where the window before ends in the next text, if all that changed is in it. -/
def movedStop (previous : InputContext) (source : TextEditingValue) : Int :=
  previous.stop + source.text.length - previous.source.text.length

/-- Whether the window before is kept: it holds the selection, and all but itself stays. -/
def keeps (previous : InputContext) (source : TextEditingValue) : Bool :=
  let first := source.first
  let last := source.last
  let stop := previous.movedStop source
  let contains := decide (previous.start ≤ first) && decide (last ≤ stop)
  let margin := (previous.start == 0 || decide (64 ≤ first - previous.start)) &&
    (stop == source.text.length || decide (64 ≤ stop - last))
  let composing := source.isComposing && previous.source.isComposing
  contains && (margin || composing) &&
    (decide (stop - previous.start ≤ max 1024 (last - first + 512)) || composing) &&
    source.text.startsWith (previous.source.text.substring 0 previous.start) 0 &&
    (previous.source.text.drop previous.stop.toNat).isSuffixOf source.text

/-- The window made anew: the whole text where it is short, else whole graphemes to both sides
    of the selection. -/
def around (gs : Graphemes) (source : TextEditingValue) (rebased : Bool) : InputContext :=
  let text := source.text
  if 1024 < text.length then
    let left := (max 0 (source.first - 256)).toNat
    let right := (min (text.length : Int) (source.last + 256)).toNat
    { source := source
      start := gs.charStart text left
      stop := gs.charStop text right
      rebased := rebased }
  else { source := source, start := 0, stop := text.length, rebased := rebased }

/-- `InputContext.of`. -/
def of (gs : Graphemes) (source : TextEditingValue) (previous : Option InputContext) :
    InputContext :=
  match previous with
  | some p =>
    if source.same p.source then { source := source, start := p.start, stop := p.stop }
    else if p.keeps source then { source := source, start := p.start, stop := p.movedStop source }
    else around gs source true
  | none => around gs source false

end InputContext

/-! ## Whole characters -/

namespace Graphemes

variable {gs : Graphemes} {t : Text} {i : Nat}

theorem charStart_spec (hi : i ≤ t.length) :
    gs.charStart t i ∈ gs.boundaries t ∧ gs.charStart t i ≤ i := by
  rw [charStart]
  cases h : gs.rangeAt t i with
  | none => exact ⟨(gs.rangeAt_eq_none hi).1 h, le_rfl⟩
  | some s =>
    obtain ⟨hs, hlt, -⟩ := gs.rangeAt_eq_some.1 h
    exact ⟨(mem_boundaries_of_mem_spans hs).1, hlt.le⟩

theorem charStop_spec (hi : i ≤ t.length) :
    gs.charStop t i ∈ gs.boundaries t ∧ i ≤ gs.charStop t i ∧ gs.charStop t i ≤ t.length := by
  rw [charStop]
  cases h : gs.rangeAt t i with
  | none => exact ⟨(gs.rangeAt_eq_none hi).1 h, le_rfl, hi⟩
  | some s =>
    obtain ⟨hs, -, hlt⟩ := gs.rangeAt_eq_some.1 h
    exact ⟨(mem_boundaries_of_mem_spans hs).2, hlt.le, gs.stop_le_of_mem_spans hs⟩

end Graphemes

namespace Text

/-- An offset is between two units that stand together only. -/
def Cuts (t : Text) (i : Int) : Prop :=
  ∃ k : Nat, i = (k + 1 : Nat) ∧ ∃ u v, t[k]? = some u ∧ t[k + 1]? = some v ∧ IsPair u v

/-- Every carriage return is that of a line break. -/
def NoBareReturn (t : Text) : Prop := ∀ k : Nat, t[k]? = some 0x0D → t[k + 1]? = some 0x0A

/-- A source that the kernel admits has no bare carriage return. -/
theorem noBareReturn_of_validate {t : Text} (h : validateFlarkSource t = true) :
    t.NoBareReturn := by
  induction hn : t.length using Nat.strongRecOn generalizing t with
  | _ n ih =>
    subst hn
    intro k hk
    cases t with
    | nil => cases hk
    | cons u rest =>
      by_cases hhigh : isHighSurrogate u = true
      · rw [validate_high hhigh, Bool.and_eq_true] at h
        obtain _ | _ | k := k
        · rw [Option.some_inj.1 hk] at hhigh
          exact absurd hhigh (by decide)
        · cases rest with
          | nil => cases hk
          | cons low rest =>
            have hlow : isLowSurrogate low = true := h.1
            rw [Option.some_inj.1 hk] at hlow
            exact absurd hlow (by decide)
        · cases rest with
          | nil => cases hk
          | cons low rest =>
            have hlt : rest.length < (u :: low :: rest).length := by
              simp only [List.length_cons]
              omega
            exact ih rest.length hlt h.2 rfl k hk
      · obtain ⟨hnext, -, h⟩ := (validate_unit hhigh rest).1 h
        obtain _ | k := k
        · have := hnext (Option.some_inj.1 hk)
          rwa [List.head?_eq_getElem?] at this
        · exact ih rest.length (Nat.lt_succ_self _) h rfl k hk

theorem not_cuts_boundary {gs : Graphemes} {t : Text} {i : Nat} (h : gs.KeepsPairs t)
    (hi : i ∈ gs.boundaries t) : ¬t.Cuts i := by
  rintro ⟨k, hk, u, v, hu, hv, hpair⟩
  rw [Int.ofNat_inj.1 hk] at hi
  exact h k u v hu hv hpair hi

theorem not_cuts_length (t : Text) : ¬t.Cuts t.length := by
  rintro ⟨k, hk, u, v, -, hv, -⟩
  have := (List.getElem?_eq_some_iff.1 hv).1
  omega

theorem not_cuts_zero (t : Text) : ¬t.Cuts 0 := by
  rintro ⟨k, hk, -⟩
  omega

end Text

namespace TextEditingValue

variable {v : TextEditingValue}

/-- What a window of a value has to hold is a range of its text. -/
theorem Within.bounds (h : v.Within) :
    0 ≤ v.first ∧ v.first ≤ v.last ∧ v.last ≤ v.text.length := by
  have hle := v.selection.start_le_stop
  have hstart := h.start
  have hstop := h.stop
  rw [first, last]
  split
  · next hc =>
    obtain ⟨hle', hstop'⟩ := h.composing hc
    simp only [TextRange.isValid, Bool.and_eq_true, decide_eq_true_eq] at hc
    omega
  · omega

end TextEditingValue

namespace InputContext

/-! ## Windows that hold the selection -/

/-- The window holds the selection and the composing range of a value. -/
structure Holds (w : InputContext) : Prop where
  start : 0 ≤ w.start
  first : w.start ≤ w.source.first
  last : w.source.last ≤ w.stop
  stop : w.stop ≤ w.source.text.length

/-- It cuts no line break and no code point besides. -/
structure Sound (w : InputContext) : Prop extends w.Holds where
  cutsStart : ¬w.source.text.Cuts w.start
  cutsStop : ¬w.source.text.Cuts w.stop

variable {gs : Graphemes} {v : TextEditingValue} {p : InputContext}

theorem source_around (rebased : Bool) : (around gs v rebased).source = v := by
  rw [around]
  dsimp only
  split <;> rfl

@[simp] theorem source_of (previous : Option InputContext) : (of gs v previous).source = v := by
  cases previous with
  | none => exact source_around false
  | some p =>
    rw [of]
    split
    · rfl
    · split
      · rfl
      · exact source_around true

/-- A window made anew holds the selection, between whole characters. -/
theorem sound_around (hv : v.Within) (hkeeps : gs.KeepsPairs v.text) (rebased : Bool) :
    (around gs v rebased).Sound := by
  obtain ⟨hfirst, hle, hlast⟩ := hv.bounds
  rw [around]
  dsimp only
  split
  · obtain ⟨hleft, hleft'⟩ := @Graphemes.charStart_spec gs v.text (max 0 (v.first - 256)).toNat
      (by omega)
    obtain ⟨hright, hright', hright''⟩ := @Graphemes.charStop_spec gs v.text
      (min (v.text.length : Int) (v.last + 256)).toNat (by omega)
    refine ⟨⟨?_, ?_, ?_, ?_⟩, ?_, ?_⟩
    · exact Int.natCast_nonneg _
    · dsimp only
      omega
    · dsimp only
      omega
    · exact Int.ofNat_le.2 hright''
    · exact Text.not_cuts_boundary hkeeps hleft
    · exact Text.not_cuts_boundary hkeeps hright
  · exact ⟨⟨le_rfl, hfirst, hlast, le_rfl⟩, Text.not_cuts_zero _, Text.not_cuts_length _⟩

/-! ## Windows that are kept -/

/-- What a window that is kept says: the selection is in it, and the text outside stays. -/
theorem keeps_spec (hp : p.Holds) (hwithin : p.source.Within) (h : p.keeps v = true) :
    p.start ≤ v.first ∧ v.last ≤ p.movedStop v ∧
      p.movedStop v = (v.text.length - (p.source.text.drop p.stop.toNat).length : Nat) ∧
      v.text.take p.start.toNat = p.source.text.take p.start.toNat ∧
      v.text.drop (p.movedStop v).toNat = p.source.text.drop p.stop.toNat := by
  obtain ⟨-, hle, -⟩ := hwithin.bounds
  obtain ⟨hstart, hfirst, hlast, hstop⟩ := hp
  rw [keeps] at h
  simp only [Bool.and_eq_true, decide_eq_true_eq, List.isSuffixOf_iff_suffix] at h
  obtain ⟨⟨⟨⟨⟨hstart', hstop'⟩, -⟩, -⟩, hbefore⟩, hbehind⟩ := h
  have hlength := hbehind.length_le
  have hmoved : p.movedStop v =
      (v.text.length - (p.source.text.drop p.stop.toNat).length : Nat) := by
    rw [movedStop]
    rw [List.length_drop] at hlength ⊢
    omega
  refine ⟨hstart', hstop', hmoved, ?_, ?_⟩
  · rw [Text.startsWith, Text.substring, List.isPrefixOf_iff_prefix] at hbefore
    have htake := List.prefix_iff_eq_take.1 hbefore
    rw [List.length_take] at htake
    simp only [Int.toNat_zero, List.drop_zero, sub_zero] at htake
    rw [htake, Nat.min_eq_left (by omega)]
  · rw [hmoved, Int.toNat_natCast]
    exact (List.suffix_iff_eq_drop.1 hbehind).symm

/-- A value puts a unit against the text outside a window that is kept, and the two stand together
    only: a carriage return before a line feed that the window ended at, or a half of a code point
    against its other half. -/
structure Joins (p : InputContext) (v : TextEditingValue) : Prop where
  differs : v.same p.source = false
  keeps : p.keeps v = true
  pair : (∃ x y, (p.source.text.take p.start.toNat).getLast? = some x ∧
      (v.text.drop p.start.toNat).head? = some y ∧ IsPair x y) ∨
    ∃ x y, (v.text.take (v.text.length - (p.source.text.drop p.stop.toNat).length)).getLast? =
      some x ∧ (p.source.text.drop p.stop.toNat).head? = some y ∧ IsPair x y

theorem cuts_iff {t : Text} {i : Nat} :
    t.Cuts i ↔ ∃ x y, (t.take i).getLast? = some x ∧ (t.drop i).head? = some y ∧ IsPair x y := by
  constructor
  · rintro ⟨k, hk, x, y, hx, hy, hpair⟩
    obtain rfl := Int.ofNat_inj.1 hk
    refine ⟨x, y, ?_, ?_, hpair⟩
    · rw [List.getLast?_take, if_neg (Nat.succ_ne_zero k), Nat.add_sub_cancel, hx]
      rfl
    · rw [List.head?_drop, hy]
  · rintro ⟨x, y, hx, hy, hpair⟩
    obtain _ | k := i
    · rw [List.take_zero] at hx
      cases hx
    · rw [List.head?_drop] at hy
      have hlt := (List.getElem?_eq_some_iff.1 hy).1
      rw [List.getLast?_take, if_neg (Nat.succ_ne_zero k), Nat.add_sub_cancel,
        List.getElem?_eq_getElem (by omega), Option.some_or] at hx
      exact ⟨k, rfl, x, y, by rw [List.getElem?_eq_getElem (by omega), hx], hy, hpair⟩

/-- What every window of a run is to be: it holds the selection and cuts no pair, and where it is
    the one before, kept, that started there and the text outside is as it was. -/
structure Good (gs : Graphemes) (previous : Option InputContext) (v : TextEditingValue) :
    Prop where
  sound : (of gs v previous).Sound
  kept : ∀ p ∈ previous, (of gs v previous).rebased = false →
    (of gs v previous).start = p.start ∧
      v.text.take p.start.toNat = p.source.text.take p.start.toNat ∧
      v.text.drop (of gs v previous).stop.toNat = p.source.text.drop p.stop.toNat

/-- A window that is kept cuts a pair exactly where the value joins the text outside. -/
theorem sound_kept_iff (hp : p.Holds) (hwithin : p.source.Within)
    (hdiffers : v.same p.source = false) (h : p.keeps v = true) :
    (InputContext.mk v p.start (p.movedStop v) false).Sound ↔ ¬p.Joins v := by
  obtain ⟨hfirst, hlast, hmoved, htake, hdrop⟩ := keeps_spec hp hwithin h
  have hcutsStart : v.text.Cuts p.start ↔ ∃ x y,
      (p.source.text.take p.start.toNat).getLast? = some x ∧
        (v.text.drop p.start.toNat).head? = some y ∧ IsPair x y := by
    rw [← htake, ← cuts_iff, Int.toNat_of_nonneg hp.start]
  have hcutsStop : v.text.Cuts (p.movedStop v) ↔ ∃ x y,
      (v.text.take (v.text.length - (p.source.text.drop p.stop.toNat).length)).getLast? = some x ∧
        (p.source.text.drop p.stop.toNat).head? = some y ∧ IsPair x y := by
    rw [hmoved, Int.toNat_natCast] at hdrop
    rw [hmoved, cuts_iff, hdrop]
  constructor
  · rintro hsound ⟨-, -, hbefore | hbehind⟩
    · exact hsound.cutsStart (hcutsStart.2 hbefore)
    · exact hsound.cutsStop (hcutsStop.2 hbehind)
  · refine fun hjoins => ⟨⟨hp.start, hfirst, hlast, ?_⟩, fun hcuts => ?_, fun hcuts => ?_⟩
    · dsimp only
      omega
    · exact hjoins ⟨hdiffers, h, Or.inl (hcutsStart.1 hcuts)⟩
    · exact hjoins ⟨hdiffers, h, Or.inr (hcutsStop.1 hcuts)⟩

theorem rebased_around (rebased : Bool) : (around gs v rebased).rebased = rebased := by
  rw [around]
  dsimp only
  split <;> rfl

/-- An equal value has the same text and the same range to hold. -/
theorem eq_of_same {v' : TextEditingValue} (h : v.same v' = true) (hwithin : v'.Within) :
    v.text = v'.text ∧ v.first = v'.first ∧ v.last = v'.last := by
  rw [TextEditingValue.same] at h
  simp only [Bool.and_eq_true, beq_iff_eq] at h
  obtain ⟨⟨htext, hselection⟩, hcomposing⟩ := h
  obtain ⟨hstart, hstop⟩ := TextSelection.ends_of_same hselection
    (TextSelection.isValid_of_nonneg hwithin.start)
  refine ⟨htext.symm, ?_, ?_⟩
  · rw [TextEditingValue.first, TextEditingValue.first, hcomposing, hstart]
  · rw [TextEditingValue.last, TextEditingValue.last, hcomposing, hstop]

/-- What the next window is to be, with a sound one before it. -/
theorem good_iff {previous : Option InputContext} (hv : v.Within) (hkeeps : gs.KeepsPairs v.text)
    (hprevious : ∀ p ∈ previous, p.Sound ∧ p.source.Within) :
    Good gs previous v ↔ ∀ p ∈ previous, ¬p.Joins v := by
  cases previous with
  | none =>
    exact iff_of_true ⟨sound_around hv hkeeps false, fun _ h => by cases h⟩ fun _ h => by cases h
  | some p =>
    obtain ⟨hp, hwithin⟩ := hprevious p rfl
    simp only [Option.mem_def, Option.some_inj, forall_eq']
    -- The same value keeps its window, one that the window before still fits moves it, and any
    -- other gets a new one.
    by_cases hsame : v.same p.source = true
    · have hof : of gs v (some p) = { source := v, start := p.start, stop := p.stop } :=
        if_pos hsame
      obtain ⟨htext, hfirst, hlast⟩ := eq_of_same hsame hwithin
      refine iff_of_true ⟨?_, fun p' hp' _ => ?_⟩ fun h =>
        Bool.false_ne_true (h.differs.symm.trans hsame)
      · rw [hof]
        refine ⟨⟨hp.start, ?_, ?_, ?_⟩, ?_, ?_⟩ <;> dsimp only
        · exact hfirst ▸ hp.first
        · exact hlast ▸ hp.last
        · exact htext ▸ hp.stop
        · exact htext ▸ hp.cutsStart
        · exact htext ▸ hp.cutsStop
      · obtain rfl := Option.some_inj.1 hp'
        rw [hof, htext]
        exact ⟨rfl, rfl, rfl⟩
    · have hdiffers := Bool.eq_false_of_not_eq_true hsame
      by_cases h : p.keeps v = true
      · have hof : of gs v (some p) = { source := v, start := p.start, stop := p.movedStop v } :=
          (if_neg hsame).trans (if_pos h)
        rw [← sound_kept_iff hp.toHolds hwithin hdiffers h]
        refine ⟨fun hgood => hof ▸ hgood.sound, fun hsound => ⟨hof ▸ hsound, fun p' hp' _ => ?_⟩⟩
        obtain rfl := Option.some_inj.1 hp'
        obtain ⟨-, -, -, htake, hdrop⟩ := keeps_spec hp.toHolds hwithin h
        rw [hof]
        exact ⟨rfl, htake, hdrop⟩
      · have hof : of gs v (some p) = around gs v true := (if_neg hsame).trans (if_neg h)
        refine iff_of_true ⟨?_, fun _ _ hrebased => ?_⟩ fun hjoins => h hjoins.keeps
        · rw [hof]
          exact sound_around hv hkeeps true
        · rw [hof, rebased_around] at hrebased
          cases hrebased

/-- A property of every window of a run, of the window before it, if any, and its value. -/
def Throughout (gs : Graphemes) (P : Option InputContext → TextEditingValue → Prop) :
    (previous : Option InputContext) → List TextEditingValue → Prop
  | _, [] => True
  | previous, v :: values => P previous v ∧ Throughout gs P (some (of gs v previous)) values

/-- All windows of a run are as they are to be exactly where no value joins the text outside the
    window before it. -/
theorem windows_sound {values : List TextEditingValue}
    (hvalues : ∀ v ∈ values, v.Within ∧ gs.KeepsPairs v.text) :
    Throughout gs (Good gs) none values ↔
      Throughout gs (fun previous v => ∀ p ∈ previous, ¬p.Joins v) none values := by
  suffices h : ∀ previous : Option InputContext, (∀ p ∈ previous, p.Sound ∧ p.source.Within) →
      (Throughout gs (Good gs) previous values ↔
        Throughout gs (fun previous v => ∀ p ∈ previous, ¬p.Joins v) previous values) from
    h none fun _ h => by cases h
  induction values with
  | nil => exact fun _ _ => Iff.rfl
  | cons v values ih =>
    obtain ⟨⟨hv, hkeeps⟩, hvalues⟩ := List.forall_mem_cons.1 hvalues
    intro previous hprevious
    rw [Throughout, Throughout, ← good_iff hv hkeeps hprevious]
    refine and_congr_right fun hgood => ih hvalues _ fun p hp => ?_
    obtain rfl := Option.some_inj.1 hp
    exact ⟨hgood.sound, by rwa [source_of]⟩

end InputContext

/-! ## A line feed that becomes a line break -/

namespace Graphemes

/-- The pieces of `breaks`. -/
def breakPieces : Text → List Text
  | 0x0D :: 0x0A :: t => [0x0D, 0x0A] :: breakPieces t
  | u :: t => [u] :: breakPieces t
  | [] => []

/-- The cut into code units and line breaks, right for text whose units are all below U+0300. -/
def breaks : Graphemes where
  split := breakPieces
  flatten_split t := by
    induction t using breakPieces.induct with
    | case1 t ih => rw [breakPieces, List.flatten_cons, ih]; rfl
    | case2 u t h ih => rw [breakPieces, List.flatten_cons, ih]; · rfl
                        · exact h
    | case3 => rfl
  ne_nil t := by
    induction t using breakPieces.induct with
    | case1 t ih =>
      rw [breakPieces]
      exact List.forall_mem_cons.2 ⟨List.cons_ne_nil _ _, ih⟩
    | case2 u t h ih =>
      rw [breakPieces]
      · exact List.forall_mem_cons.2 ⟨List.cons_ne_nil _ _, ih⟩
      · exact h
    | case3 => exact fun _ h => absurd h List.not_mem_nil
  low t := by
    induction t using breakPieces.induct with
    | case1 t ih =>
      rw [breakPieces]
      refine List.forall_mem_cons.2 ⟨fun i a b ha hb _ _ => ?_, ih⟩
      obtain _ | i := i
      · exact ⟨(Option.some_inj.1 ha).symm, (Option.some_inj.1 hb).symm⟩
      · cases hb
    | case2 u t h ih =>
      rw [breakPieces]
      · refine List.forall_mem_cons.2 ⟨fun i a b ha hb _ _ => ?_, ih⟩
        cases hb
      · exact h
    | case3 => exact fun _ h => absurd h List.not_mem_nil

theorem not_mem_ends_breakPieces {t : Text} {start i : Nat} (hu : t[i]? = some 0x0D)
    (hv : t[i + 1]? = some 0x0A) : start + i + 1 ∉ start :: ends start (breakPieces t) := by
  induction t using breakPieces.induct generalizing start i with
  | case1 t ih =>
    rw [breakPieces, ends, List.mem_cons]
    rintro (h | h)
    · omega
    · -- The two units are the first piece, or lie behind it.
      obtain _ | _ | i := i
      · rcases List.mem_cons.1 h with h | h
        · rw [List.length_cons, List.length_singleton] at h
          omega
        · have hle := start_le_of_mem_ends h
          rw [List.length_cons, List.length_singleton] at hle
          omega
      · exact absurd (Option.some_inj.1 hu) (by decide)
      · refine @ih (start + 2) i hu hv ?_
        rwa [show start + 2 + i + 1 = start + (i + 2) + 1 by omega]
  | case2 u t hne ih =>
    rw [breakPieces, ends, List.mem_cons]
    · rintro (h | h)
      · omega
      · obtain _ | i := i
        · obtain ⟨t, rfl⟩ : ∃ rest, t = 0x0A :: rest := by
            cases t with
            | nil => cases hv
            | cons v rest => exact ⟨rest, congrArg (· :: rest) (Option.some_inj.1 hv)⟩
          exact hne t (Option.some_inj.1 hu) rfl
        · refine @ih (start + 1) i hu hv ?_
          rwa [show start + 1 + i + 1 = start + (i + 1) + 1 by omega]
    · exact hne
  | case3 => cases hu

/-- A line break is one piece. -/
theorem keepsPairs_breaks {t : Text} (ht : t.any isHighSurrogate = false) :
    breaks.KeepsPairs t := by
  rintro i u v hu hv (⟨rfl, rfl⟩ | ⟨hhigh, -⟩) h
  · exact @not_mem_ends_breakPieces _ 0 _ hu hv (by rwa [Nat.zero_add])
  · exact List.any_eq_false.1 ht u (List.mem_of_getElem? hu) hhigh

end Graphemes

namespace InputContext

/-- The caret is in the first of two lines; the window made around it ends at the line feed. -/
def twoLines : TextEditingValue where
  text := List.replicate 1000 0x61 ++ 0x0A :: List.replicate 100 0x62
  selection := .collapsed 744

/-- The line feed has become a line break. -/
def twoLinesBroken : TextEditingValue where
  text := List.replicate 1000 0x61 ++ 0x0D :: 0x0A :: List.replicate 100 0x62
  selection := .collapsed 744

theorem windows_twoLines :
    of .breaks twoLines none = { source := twoLines, start := 488, stop := 1000 } ∧
      of .breaks twoLinesBroken (some { source := twoLines, start := 488, stop := 1000 }) =
        { source := twoLinesBroken, start := 488, stop := 1001 } := by
  decide +kernel

theorem within_twoLines : twoLines.Within ∧ twoLinesBroken.Within :=
  ⟨⟨by decide, by decide +kernel, fun h => by cases h⟩,
    ⟨by decide, by decide +kernel, fun h => by cases h⟩⟩

/-- The window is kept, and ends between the carriage return and the line feed. -/
theorem not_windows_sound :
    (∀ v ∈ [twoLines, twoLinesBroken],
      v.Within ∧ v.text.NoBareReturn ∧ Graphemes.breaks.KeepsPairs v.text) ∧
    ¬Throughout .breaks (Good .breaks) none [twoLines, twoLinesBroken] := by
  obtain ⟨hwithin, hwithin'⟩ := within_twoLines
  constructor
  · intro v hv
    obtain rfl | rfl : v = twoLines ∨ v = twoLinesBroken := by simpa using hv
    · exact ⟨hwithin, Text.noBareReturn_of_validate (by decide +kernel),
        Graphemes.keepsPairs_breaks (by decide +kernel)⟩
    · exact ⟨hwithin', Text.noBareReturn_of_validate (by decide +kernel),
        Graphemes.keepsPairs_breaks (by decide +kernel)⟩
  · rintro ⟨-, hgood, -⟩
    rw [windows_twoLines.1] at hgood
    have hsound := hgood.sound
    rw [windows_twoLines.2] at hsound
    exact hsound.cutsStop ⟨1000, rfl, 0x0D, 0x0A, by decide +kernel, by decide +kernel,
      Or.inl ⟨rfl, rfl⟩⟩

/-- A line of letters. -/
def letters (n : Nat) (caret : Int) : TextEditingValue where
  text := List.replicate n 0x61
  selection := .collapsed caret

theorem letters_within {n : Nat} {caret : Int} (h : 0 ≤ caret ∧ caret ≤ n) :
    (letters n caret).Within := by
  have hstart : (letters n caret).selection.start = caret := ite_self caret
  have hstop : (letters n caret).selection.stop = caret := ite_self caret
  have hlength : (letters n caret).text.length = n := List.length_replicate
  refine ⟨?_, ?_, fun hcomposing => by cases hcomposing⟩
  · rw [hstart]
    exact h.1
  · rw [hstop, hlength]
    exact h.2

theorem keepsPairs_letters (n : Nat) (caret : Int) :
    Graphemes.breaks.KeepsPairs (letters n caret).text :=
  Graphemes.keepsPairs_breaks (List.any_eq_false.2 fun u hu => by
    rw [List.eq_of_mem_replicate hu]
    decide)

/-- A letter is typed, in a window with text outside it on both sides. -/
theorem windows_sound_typed :
    (of .breaks (letters 1200 600) none =
        { source := letters 1200 600, start := 344, stop := 856 } ∧
      of .breaks (letters 1201 601)
          (some { source := letters 1200 600, start := 344, stop := 856 }) =
        { source := letters 1201 601, start := 344, stop := 857 }) ∧
    Throughout .breaks (Good .breaks) none [letters 1200 600, letters 1201 601] := by
  refine ⟨by decide +kernel, (windows_sound fun v hv => ?_).2
    ⟨fun _ h => (by cases h), fun p hp hjoins => ?_, trivial⟩⟩
  · obtain rfl | rfl : v = letters 1200 600 ∨ v = letters 1201 601 := by simpa using hv
    · exact ⟨letters_within (by decide), keepsPairs_letters _ _⟩
    · exact ⟨letters_within (by decide), keepsPairs_letters _ _⟩
  · -- Of letters, none stands together with another unit only.
    have hletter {n : Nat} {caret : Int} {x y : UInt16} (hx : x ∈ (letters n caret).text) :
        ¬IsPair x y := by
      rw [List.eq_of_mem_replicate hx]
      rintro (⟨h, -⟩ | ⟨h, -⟩)
      · exact absurd h (by decide)
      · exact absurd h (by decide)
    have hsource : p.source = letters 1200 600 := by
      obtain rfl := Option.some_inj.1 hp
      exact source_of none
    rcases hjoins.pair with ⟨x, y, hx, -, hpair⟩ | ⟨x, y, hx, -, hpair⟩
    · rw [hsource] at hx
      exact hletter (List.mem_of_mem_take (List.mem_of_getLast? hx)) hpair
    · exact hletter (List.mem_of_mem_take (List.mem_of_getLast? hx)) hpair

end InputContext

end Flark
