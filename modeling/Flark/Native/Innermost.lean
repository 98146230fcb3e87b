import Mathlib.Algebra.Group.Nat.Defs
import Mathlib.Data.List.Induction
import Flark.Lib.Leaps

/-!
# Innermost containers

`innermost_per_line` of `model.rs` gives each line the last of the spans that cover it. It visits
the spans from the last one on, and jumps over the lines that are given away through a table of the
next open line, whose ways it shortens as it takes them. `none` is a panic, or a loop that does not
end.

* `nextOpen_spec`: the next open line is found, and the table still skips none;
* `giveFrom_spec`: a span takes the open lines that it covers, and no others;
* `innermostPerLine_spec`: the owner of a line is the last span that covers it.
-/

namespace Flark.Native

/-! ## The table -/

/-- The first loop of `next_open`: the end of the way from a line. -/
def rootFrom (next : List Nat) : (turns : Nat) → (root : Nat) → Option Nat
  | 0, _ => none
  | turns + 1, root => do
    let up ← next[root]?
    if up = root then return root else rootFrom next turns up

/-- The second loop of `next_open`: each place on the way leads to its end. -/
def compressFrom (root : Nat) : (turns : Nat) → (next : List Nat) → (l : Nat) → Option (List Nat)
  | 0, _, _ => none
  | turns + 1, next, l => do
    let up ← next[l]?
    if up = root then return next else compressFrom root turns (next.set l root) up

/-- `next_open`. -/
def nextOpen (next : List Nat) (l : Nat) : Option (Nat × List Nat) := do
  let root ← rootFrom next next.length l
  let next ← compressFrom root next.length next l
  return (root, next)

/-- The loop over the lines of a span: each open one is given to it. -/
def giveFrom (lines i last : Nat) : (turns : Nat) → (line : Nat) → (owner : List (Option Nat)) →
    (next : List Nat) → Option (List (Option Nat) × List Nat)
  | 0, _, _, _ => none
  | turns + 1, line, owner, next =>
    if line ≤ last ∧ line < lines then do
      let _ ← owner[line]?
      let _ ← next[line]?
      let (line', next) ← nextOpen (next.set line (line + 1)) (line + 1)
      giveFrom lines i last turns line' (owner.set line (some i)) next
    else return (owner, next)

section

variable (usizeMax lines : Nat)

/-- The loop of `innermost_per_line`, over the spans from the last on, each with its index. -/
def giveAll : List ((Nat × Nat) × Nat) → (owner : List (Option Nat)) → (next : List Nat) →
    Option (List (Option Nat))
  | [], owner, _ => some owner
  | ((first, last), i) :: spans, owner, next =>
    if last = usizeMax then giveAll spans owner next
    else do
      let (line, next) ← nextOpen next (min first lines)
      let (owner, next) ← giveFrom lines i last (lines + 1) line owner next
      giveAll spans owner next

/-- `innermost_per_line`. -/
def innermostPerLine (taken : List Bool) (spans : List (Nat × Nat)) : Option (List (Option Nat)) :=
  giveAll usizeMax lines spans.zipIdx.reverse (List.replicate lines none)
    ((List.range (lines + 1)).map fun l => if taken[l]? = some true then l + 1 else l)

/-- A span covers a line; one that ends at the largest number is empty. -/
def Covers (span : Nat × Nat) (line : Nat) : Prop :=
  span.2 ≠ usizeMax ∧ span.1 ≤ line ∧ line ≤ span.2

instance (span : Nat × Nat) (line : Nat) : Decidable (Covers usizeMax span line) :=
  inferInstanceAs (Decidable (_ ∧ _))

end

/-! ## The next open line -/

section

variable {isOpen : Nat → Prop} {n : Nat} {next : List Nat}

theorem rootFrom_spec (h : Leaps isOpen n next) (turns : Nat) {l : Nat} (hl : l ≤ n)
    (hturns : n < turns + l) :
    ∃ root, rootFrom next turns l = some root ∧ IsNext isOpen n l root := by
  induction turns generalizing l with
  | zero => omega
  | succ turns ih =>
    obtain ⟨up, hup⟩ := h.exists_getElem? hl
    rw [rootFrom, hup, Option.bind_eq_bind, Option.bind_some]
    split_ifs with heq
    · obtain rfl := heq
      exact ⟨up, rfl, h.isNext_self hup⟩
    · have hle := h.le l up hup
      obtain ⟨root, hroot, hnext⟩ := ih (h.le_end l up hup) (by omega)
      exact ⟨root, hroot, h.isNext_step hup hnext⟩

theorem compressFrom_spec (h : Leaps isOpen n next) (turns : Nat) {l root : Nat} (hl : l ≤ n)
    (hturns : n < turns + l) (hroot : IsNext isOpen n l root) :
    ∃ next', compressFrom root turns next l = some next' ∧ Leaps isOpen n next' := by
  induction turns generalizing l next with
  | zero => omega
  | succ turns ih =>
    obtain ⟨up, hup⟩ := h.exists_getElem? hl
    rw [compressFrom, hup, Option.bind_eq_bind, Option.bind_some]
    split_ifs with heq
    · exact ⟨next, rfl, h⟩
    · have hle := h.le l up hup
      have hup' : up ≤ root := h.le_isNext hup hroot
      have hne : l ≠ up := by
        rintro rfl
        exact heq ((h.isNext_self hup).unique hroot)
      exact ih (h.toNext hroot) (h.le_end l up hup) (by omega) (hroot.between hle hup')

/-- The next open line is found, and the shortened ways skip none. -/
theorem nextOpen_spec (h : Leaps isOpen n next) {l : Nat} (hl : l ≤ n) :
    ∃ root next', nextOpen next l = some (root, next') ∧ IsNext isOpen n l root ∧
      Leaps isOpen n next' := by
  have hlength := h.length
  obtain ⟨root, hroot, hnext⟩ := rootFrom_spec h next.length hl (by omega)
  obtain ⟨next', hnext', h'⟩ := compressFrom_spec h next.length hl (by omega) hnext
  refine ⟨root, next', ?_, hnext, h'⟩
  rw [nextOpen, hroot, Option.bind_eq_bind, Option.bind_some, hnext']
  rfl

end

/-! ## Spans -/

/-- Whom a span that takes the lines of a set changes. -/
def Gives (i : Nat) (takes : Nat → Prop) (owner owner' : List (Option Nat)) : Prop :=
  owner'.length = owner.length ∧ (∀ k, takes k → owner'[k]? = some (some i)) ∧
    ∀ k, ¬takes k → owner'[k]? = owner[k]?

theorem giveFrom_spec {isOpen : Nat → Prop} {lines : Nat} (i last turns : Nat) {line : Nat}
    {owner : List (Option Nat)} {next : List Nat} (h : Leaps isOpen lines next)
    (hwithin : ∀ k, isOpen k → k < lines) (howner : owner.length = lines)
    (hline : isOpen line ∨ line = lines) (hturns : lines < turns + line) :
    ∃ owner' next', giveFrom lines i last turns line owner next = some (owner', next') ∧
      Leaps (fun k => isOpen k ∧ ¬(line ≤ k ∧ k ≤ last)) lines next' ∧
      Gives i (fun k => isOpen k ∧ line ≤ k ∧ k ≤ last) owner owner' := by
  have hle : line ≤ lines := hline.elim (fun hopen => (hwithin line hopen).le) le_of_eq
  induction turns generalizing line owner next isOpen with
  | zero => omega
  | succ turns ih =>
    rw [giveFrom]
    split_ifs with hgo
    · obtain ⟨hlast, hlt⟩ := hgo
      have hopen : isOpen line := hline.resolve_right hlt.ne
      obtain ⟨up, hup⟩ := h.exists_getElem? hle
      obtain ⟨line', next₁, hnext, hfirst, h₁⟩ := nextOpen_spec (h.close hlt) (l := line + 1) hlt
      have hlater := hfirst.le
      have hset : (owner.set line (some i)).length = lines := by rw [List.length_set, howner]
      obtain ⟨owner', next', hgive, h', hlength, htaken, hkept⟩ :=
        ih h₁ (fun k hk => hwithin k hk.1) hset hfirst.isOpen_or (by omega) hfirst.le_end
      -- Nothing between this line and the next one is open.
      have hbetween (k : Nat) : isOpen k ∧ line ≤ k ∧ k ≤ last ↔
          k = line ∨ ((isOpen k ∧ k ≠ line) ∧ line' ≤ k ∧ k ≤ last) := by
        constructor
        · rintro ⟨hk, hlk, hkl⟩
          by_cases heq : k = line
          · exact Or.inl heq
          · refine Or.inr ⟨⟨hk, heq⟩, ?_, hkl⟩
            by_contra hlt'
            exact hfirst.skipped k (by omega) (not_le.1 hlt') ⟨hk, heq⟩
        · rintro (rfl | ⟨⟨hk, -⟩, hlk, hkl⟩)
          · exact ⟨hopen, le_rfl, hlast⟩
          · exact ⟨hk, (Nat.le_succ line).trans (hfirst.le.trans hlk), hkl⟩
      refine ⟨owner', next', ?_, h'.congr fun k => ?_, ?_, fun k hk => ?_, fun k hk => ?_⟩
      · rw [List.getElem?_eq_getElem (by omega)]
        simp only [Option.bind_eq_bind, Option.bind_some, hup, hnext, hgive]
      · have := hbetween k
        tauto
      · rw [hlength, List.length_set]
      · rcases (hbetween k).1 hk with rfl | hk'
        · rw [hkept k fun hk => hk.1.2 rfl, List.getElem?_set_self (by omega)]
        · exact htaken k hk'
      · have hk' := not_or.1 fun h => hk ((hbetween k).2 h)
        rw [hkept k hk'.2, List.getElem?_set_ne (Ne.symm hk'.1)]
    · have hnone (k : Nat) : isOpen k → ¬(line ≤ k ∧ k ≤ last) := by
        intro hk hrange
        have := hwithin k hk
        omega
      refine ⟨owner, next, rfl, h.congr fun k => ⟨fun hk => ⟨hk, hnone k hk⟩, And.left⟩, rfl,
        fun k hk => absurd hk.2 (hnone k hk.1), fun k _ => rfl⟩

section

variable {usizeMax lines : Nat}

/-- The open lines go to the first of the spans visited that covers them. -/
theorem giveAll_spec {isOpen : Nat → Prop} {spans : List ((Nat × Nat) × Nat)}
    {owner : List (Option Nat)} {next : List Nat} (h : Leaps isOpen lines next)
    (hwithin : ∀ k, isOpen k → k < lines) (howner : owner.length = lines) :
    ∃ owner', giveAll usizeMax lines spans owner next = some owner' ∧ owner'.length = lines ∧
      ∀ k, (∀ s, isOpen k → spans.find? (fun s => Covers usizeMax s.1 k) = some s →
          owner'[k]? = some (some s.2)) ∧
        ((isOpen k → spans.find? (fun s => Covers usizeMax s.1 k) = none) →
          owner'[k]? = owner[k]?) := by
  induction spans generalizing isOpen owner next with
  | nil => exact ⟨owner, rfl, howner, fun k => ⟨fun s _ hs => absurd hs (by simp), fun _ => rfl⟩⟩
  | cons span spans ih =>
    obtain ⟨⟨first, last⟩, i⟩ := span
    rw [giveAll]
    split_ifs with hmax
    · obtain ⟨owner', hgive, hlength, hall⟩ := ih h hwithin howner
      refine ⟨owner', hgive, hlength, fun k => ?_⟩
      have hnot : ¬Covers usizeMax (first, last) k := fun hcovers => hcovers.1 hmax
      rw [List.find?_cons_of_neg (by simpa using hnot)]
      exact hall k
    · obtain ⟨line, next₁, hnext, hfirst, h₁⟩ := nextOpen_spec h (min_le_right first lines)
      obtain ⟨owner₂, next₂, hgive, h₂, hlength, htaken, hkept⟩ :=
        giveFrom_spec i last (lines + 1) h₁ hwithin howner hfirst.isOpen_or (by omega)
      obtain ⟨owner', hrest, hlength', hall⟩ :=
        ih h₂ (fun k hk => hwithin k hk.1) (hlength.trans howner)
      -- From the next open line on, an open line is from the span's start on.
      have hcovers (k : Nat) (hk : isOpen k) :
          line ≤ k ∧ k ≤ last ↔ Covers usizeMax (first, last) k := by
        have hlt := hwithin k hk
        constructor
        · rintro ⟨hle, hlast⟩
          have := hfirst.le
          exact ⟨hmax, by dsimp only; omega, hlast⟩
        · rintro ⟨-, hle, hlast⟩
          dsimp only at hle hlast
          refine ⟨?_, hlast⟩
          by_contra hbefore
          exact hfirst.skipped k (by omega) (not_le.1 hbefore) hk
      refine ⟨owner', ?_, hlength', fun k => ⟨fun s hk hs => ?_, fun hnone => ?_⟩⟩
      · simp only [Option.bind_eq_bind, Option.bind_some, hnext, hgive, hrest]
      · by_cases hspan : Covers usizeMax (first, last) k
        · rw [List.find?_cons_of_pos (by simpa using hspan)] at hs
          obtain rfl := Option.some.inj hs
          have hgiven := (hcovers k hk).2 hspan
          rw [(hall k).2 fun hopen => absurd hgiven hopen.2]
          exact htaken k ⟨hk, hgiven⟩
        · rw [List.find?_cons_of_neg (by simpa using hspan)] at hs
          exact (hall k).1 s ⟨hk, fun hgiven => hspan ((hcovers k hk).1 hgiven)⟩ hs
      · have hspan (hk : isOpen k) : ¬Covers usizeMax (first, last) k := by
          have := List.find?_eq_none.1 (hnone hk) ((first, last), i) List.mem_cons_self
          simpa using this
        rw [(hall k).2 fun hopen => ?_, hkept k fun hk => hspan hk.1 ((hcovers k hk.1).1 hk.2)]
        have := hnone hopen.1
        rwa [List.find?_cons_of_neg (by simpa using hspan hopen.1)] at this

/-- The table that the search starts with leads past the lines that are taken. -/
theorem leaps_start {taken : List Bool} (htaken : taken.length ≤ lines) :
    Leaps (fun k => k < lines ∧ taken[k]? ≠ some true) lines
      ((List.range (lines + 1)).map fun l => if taken[l]? = some true then l + 1 else l) := by
  have hget {l u : Nat} (h : ((List.range (lines + 1)).map fun l =>
      if taken[l]? = some true then l + 1 else l)[l]? = some u) :
      l ≤ lines ∧ u = if taken[l]? = some true then l + 1 else l := by
    rw [List.getElem?_map, Option.map_eq_some_iff] at h
    obtain ⟨k, hk, rfl⟩ := h
    obtain ⟨hlt, rfl⟩ := List.getElem?_eq_some_iff.1 hk
    rw [List.length_range] at hlt
    rw [List.getElem_range]
    exact ⟨Nat.le_of_lt_succ hlt, rfl⟩
  have hlt {l : Nat} (h : taken[l]? = some true) : l < lines :=
    (List.getElem?_eq_some_iff.1 h).1.trans_le htaken
  refine ⟨by rw [List.length_map, List.length_range], fun l u h => ?_, fun l u h => ?_,
    fun l h => ?_, fun l u h k hk hk' => ?_⟩
  · obtain ⟨-, rfl⟩ := hget h
    split_ifs <;> omega
  · obtain ⟨hle, rfl⟩ := hget h
    split_ifs with hl
    · exact hlt hl
    · exact hle
  · obtain ⟨hle, heq⟩ := hget h
    split_ifs at heq with hl
    · omega
    · exact (lt_or_eq_of_le hle).imp_left fun hlt => ⟨hlt, hl⟩
  · obtain ⟨-, rfl⟩ := hget h
    split_ifs at hk' with hl
    · obtain rfl : k = l := by omega
      exact fun hopen => hopen.2 hl
    · omega

/-- The first of the spans from the last on with a property is the last one that has it. -/
theorem find?_reverse_zipIdx {p : Nat × Nat → Bool} {spans : List (Nat × Nat)} {i : Nat} :
    (spans.zipIdx.reverse.find? fun s => p s.1).map Prod.snd = some i ↔
      ∃ s, spans[i]? = some s ∧ p s = true ∧ ∀ j > i, ∀ s', spans[j]? = some s' → p s' = false := by
  -- By induction from the end: the last span decides if it has the property, and is passed over if
  -- not.
  induction spans using List.reverseRecOn with
  | nil => simp
  | append_singleton spans s ih =>
    rw [List.zipIdx_append, List.zipIdx_singleton, List.reverse_append, List.reverse_singleton,
      List.singleton_append, Nat.zero_add]
    have hbefore {j : Nat} {s' : Nat × Nat} (h : (spans ++ [s])[j]? = some s') :
        spans[j]? = some s' ∨ j = spans.length ∧ s' = s := by
      rw [List.getElem?_append] at h
      split_ifs at h with hj
      · exact Or.inl h
      · rw [List.getElem?_singleton] at h
        split_ifs at h with hj'
        exact Or.inr ⟨by omega, (Option.some.inj h).symm⟩
    cases hp : p s with
    | true =>
      rw [List.find?_cons_of_pos (by exact hp), Option.map_some, Option.some_inj]
      constructor
      · rintro rfl
        refine ⟨s, List.getElem?_concat_length, hp, fun j hj s' hs' => ?_⟩
        rw [List.getElem?_eq_none (by rw [List.length_append, List.length_singleton]; omega)] at hs'
        cases hs'
      · rintro ⟨s', hs', -, hlast⟩
        rcases hbefore hs' with hi | ⟨rfl, -⟩
        · have hlt := (List.getElem?_eq_some_iff.1 hi).1
          rw [hlast spans.length hlt s List.getElem?_concat_length] at hp
          cases hp
        · rfl
    | false =>
      rw [List.find?_cons_of_neg (by simpa using hp), ih]
      constructor
      · rintro ⟨s', hs', hp', hlast⟩
        refine ⟨s', ?_, hp', fun j hj s'' hs'' => ?_⟩
        · rw [List.getElem?_append_left (List.getElem?_eq_some_iff.1 hs').1, hs']
        · rcases hbefore hs'' with h | ⟨-, rfl⟩
          · exact hlast j hj s'' h
          · exact hp
      · rintro ⟨s', hs', hp', hlast⟩
        rcases hbefore hs' with h | ⟨-, rfl⟩
        · refine ⟨s', h, hp', fun j hj s'' hs'' => hlast j hj s'' ?_⟩
          rw [List.getElem?_append_left (List.getElem?_eq_some_iff.1 hs'').1, hs'']
        · rw [hp] at hp'
          cases hp'

/-- Every line belongs to the last span that covers it, and a line that is taken, or that no span
    covers, to none. The search ends, and reads no place that is not there. -/
theorem innermostPerLine_spec {taken : List Bool} (htaken : taken.length ≤ lines)
    (spans : List (Nat × Nat)) :
    ∃ owner, innermostPerLine usizeMax lines taken spans = some owner ∧ owner.length = lines ∧
      ∀ line < lines,
        (∀ i, owner[line]? = some (some i) ↔ taken[line]? ≠ some true ∧
          ∃ span, spans[i]? = some span ∧ Covers usizeMax span line ∧
            ∀ j > i, ∀ span', spans[j]? = some span' → ¬Covers usizeMax span' line) ∧
        (owner[line]? = some none ↔ taken[line]? = some true ∨
          ∀ span ∈ spans, ¬Covers usizeMax span line) := by
  -- The spans are gone through from the last on, so that the first to come to a line is the last
  -- that covers it.
  obtain ⟨owner, hgive, hlength, hall⟩ := @giveAll_spec usizeMax lines _ spans.zipIdx.reverse
    (List.replicate lines none) _ (leaps_start htaken) (fun k hk => hk.1) List.length_replicate
  refine ⟨owner, hgive, hlength, fun line hline => ?_⟩
  obtain ⟨hgiven, hkept⟩ := hall line
  have hlast (i : Nat) := @find?_reverse_zipIdx (fun s => decide (Covers usizeMax s line)) spans i
  simp only [decide_eq_true_eq, decide_eq_false_iff_not] at hlast
  rw [List.getElem?_replicate_of_lt hline] at hkept
  by_cases htakes : taken[line]? = some true
  · have hnone := hkept fun hopen => absurd htakes hopen.2
    refine ⟨fun i => ?_, ?_⟩
    · rw [hnone]
      simp [htakes]
    · simp [hnone, htakes]
  · cases hfind : spans.zipIdx.reverse.find? fun s => decide (Covers usizeMax s.1 line) with
    | none =>
      have hnone := hkept fun _ => hfind
      rw [hfind] at hlast
      refine ⟨fun i => ?_, ?_⟩
      · rw [hnone, ← hlast]
        simp
      · refine ⟨fun _ => Or.inr fun span hspan hcovers => ?_, fun _ => hnone⟩
        obtain ⟨i, hi, rfl⟩ := List.getElem_of_mem hspan
        have := List.find?_eq_none.1 hfind (spans[i], i)
          (List.mem_reverse.2 (List.mk_mem_zipIdx_iff_getElem?.2 (List.getElem?_eq_getElem hi)))
        exact this (decide_eq_true hcovers)
    | some s =>
      have hsome := hgiven s ⟨hline, htakes⟩ hfind
      rw [hfind] at hlast
      refine ⟨fun i => ?_, ?_⟩
      · rw [hsome, ← hlast, Option.map_some, Option.some_inj, Option.some_inj]
        exact ⟨fun h => ⟨htakes, h⟩, And.right⟩
      · rw [hsome]
        constructor
        · intro h
          cases h
        · intro h
          obtain ⟨span, hspan, hcovers, -⟩ := (hlast s.2).1 rfl
          exact absurd hcovers (h.resolve_left htakes span (List.mem_of_getElem? hspan))

end

/-- Nested spans, the last of them past the last line, and a line that is taken. -/
theorem innermostPerLine_spec_nested : ∃ owner,
    innermostPerLine (2 ^ 64 - 1) 4 [false, true] [(0, 3), (1, 9), (2, 2)] = some owner ∧
      owner[2]? = some (some 2) ∧ owner[1]? = some none := by
  obtain ⟨owner, hgive, -, hall⟩ := @innermostPerLine_spec (2 ^ 64 - 1) 4 [false, true]
    (by decide) [(0, 3), (1, 9), (2, 2)]
  refine ⟨owner, hgive, ((hall 2 (by decide)).1 2).2 ⟨by decide, (2, 2), rfl, by decide, ?_⟩,
    (hall 1 (by decide)).2.2 (Or.inl rfl)⟩
  intro j hj span' hspan'
  have hlength : [(0, 3), (1, 9), (2, 2)].length ≤ j := hj
  rw [List.getElem?_eq_none hlength] at hspan'
  cases hspan'

/-- A span that ends at the largest number covers a line and is passed over. -/
theorem not_innermostPerLine_largest :
    ((0, 2 ^ 64 - 1) : Nat × Nat).1 ≤ 0 ∧ 0 ≤ ((0, 2 ^ 64 - 1) : Nat × Nat).2 ∧
      innermostPerLine (2 ^ 64 - 1) 1 [] [(0, 2 ^ 64 - 1)] = some [none] := by
  decide

end Flark.Native
