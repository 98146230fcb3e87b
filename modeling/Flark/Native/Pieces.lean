import Flark.Native.Entities

/-!
# The pieces of a text node

A text node whose literal differs from its source slice is split into exact pieces and
replacement pieces (`split_pieces`). The split is a walk over both strings in lockstep: an entity
is one piece, equal scalars are exact, and at a mismatch the cheapest number of source bytes and
literal scalars is skipped after which the strings agree again.

* `Walk.Sound`: what every turn of the walk keeps (`turn_spec`), which moves one of the two
  cursors on, so that the walk ends (`walk_spec`);
* `splitPieces_covers`: the split does not panic, and the pieces that it returns cover the slice
  and show the literal.
-/

namespace Flark.Native

/-- `Piece`: a source byte range within the slice, and the literal byte range that it displays as,
    or `none` for an exact piece. -/
structure Piece where
  start : Nat
  stop : Nat
  display : Option (Nat × Nat)
  deriving DecidableEq, Inhabited, Repr

/-- `MAX_SOURCE`. -/
def maxSource : Nat := 40

/-- `MAX_DISPLAY_CHARS`. -/
def maxDisplayChars : Nat := 4

/-- The turns of `agree`. -/
def agreeFrom (pipes : Bool) : (turns : Nat) → (a b : Str) → Bool
  | 0, _, _ => true
  | _ + 1, [], [] => true
  | _ + 1, [], _ :: _ => false
  | turns + 1, x :: a, b =>
    if (entityLen (x :: a)).isSome then true
    else
      -- The backslash of `\|` is not in the literal: the pipe is what is compared.
      let escape := pipes && x = '\\' && a.head? = some '|'
      match b with
      | [] => false
      | y :: b =>
        if (if escape then '|' else x) = y then
          agreeFrom pipes turns (if escape then a.tail else a) b
        else false

/-- `agree`: whether the next three characters (or the ends) agree. -/
def agree (a b : Str) (pipes : Bool) : Bool := agreeFrom pipes 3 a b

/-- The end of `k` characters of the literal from `jj` on, if there are that many. -/
def skipChars (literal : Str) : (k jj : Nat) → Option (Option Nat)
  | 0, jj => some (some jj)
  | k + 1, jj => do
    match ← Str.sliceFrom literal jj with
    | [] => return none
    | c :: _ => skipChars literal k (jj + c.utf8Size)

/-- A pair that the resync tries: `l` source bytes and `k` literal characters. -/
def tryResync (slice literal : Str) (pipes : Bool) (i j : Nat) (pair : Nat × Nat) :
    Option (Option (Nat × Nat)) := do
  let (l, k) := pair
  if l = 0 ∧ 0 < i then return none
  if maxDisplayChars < k ∨ Str.len slice < i + l ∨ Str.isCharBoundary slice (i + l) = false then
    return none
  match ← skipChars literal k j with
  | none => return none
  | some jj =>
    let shown ← Str.slice literal j jj
    if l = 0 ∧ shown.any (· ≠ ' ') then return none
    if agree (← Str.sliceFrom slice (i + l)) (← Str.sliceFrom literal jj) pipes then
      return some (l, jj)
    return none

/-- The pairs that the resync tries, cheapest first, with `rest` source bytes left. -/
def resyncPairs (rest : Nat) : List (Nat × Nat) :=
  (List.range' 1 (min (maxSource + maxDisplayChars) (rest + maxDisplayChars))).flatMap fun cost =>
    let low := cost - maxDisplayChars
    (List.range' low (min (min cost maxSource) rest + 1 - low)).map fun l => (l, cost - l)

/-- The resync of `split_pieces`: the source bytes that the next piece takes, and where its
    display ends. -/
def resync (slice literal : Str) (pipes : Bool) (i j : Nat) : Option (Option (Nat × Nat)) :=
  (resyncPairs (Str.len slice - i)).findSomeM? (tryResync slice literal pipes i j)

/-- The state of the walk of `split_pieces`: the pieces so far, the source and the literal offset,
    and where the exact piece that is not yet ended starts. -/
structure Walk where
  pieces : List Piece
  i : Nat
  j : Nat
  exactStart : Option (Nat × Nat)
  deriving DecidableEq, Inhabited, Repr

namespace Walk

/-- End the exact piece. -/
def flush (w : Walk) : Walk :=
  match w.exactStart with
  | none => w
  | some (es, _) => { w with pieces := w.pieces ++ [⟨es, w.i, none⟩], exactStart := none }

/-- A replacement piece of `l` source bytes, whose display ends at `jj`. -/
def replace (w : Walk) (l jj : Nat) : Walk :=
  { w with pieces := w.pieces ++ [⟨w.i, w.i + l, some (w.j, jj)⟩], i := w.i + l, j := jj }

/-- A character of an exact piece. -/
def exact (w : Walk) (c : Char) : Walk :=
  { w with
    exactStart := w.exactStart.or (some (w.i, w.j))
    i := w.i + c.utf8Size
    j := w.j + c.utf8Size }

end Walk

/-- What a turn of the walk comes to. -/
inductive Turn where
  | next (w : Walk)
  | done (w : Walk)
  | stuck
  deriving DecidableEq, Repr

/-- The turn at an entity that the literal shows decoded. -/
def entityTurn (decode : Str → Str) (slice literal : Str) (w : Walk) : Option (Option Walk) := do
  match entityLen (← Str.sliceFrom slice w.i) with
  | none => return none
  | some l =>
    let reference ← Str.slice slice w.i (w.i + l)
    let shown := decode reference
    if shown ≠ reference ∧ shown.isPrefixOf (← Str.sliceFrom literal w.j) then
      return some (w.flush.replace l (w.j + Str.len shown))
    return none

/-- The turn at a mismatch. -/
def mismatchTurn (slice literal : Str) (pipes : Bool) (w : Walk) : Option Turn := do
  if w.i = Str.len slice ∧ 0 < w.i then return .stuck
  match ← resync slice literal pipes w.i w.j with
  | none => return .stuck
  | some (l, jj) => return .next (w.replace l jj)

/-- A turn of the walk. -/
def turn (decode : Str → Str) (slice literal : Str) (pipes : Bool) (w : Walk) : Option Turn := do
  match ← entityTurn decode slice literal w with
  | some w => return .next w
  | none =>
    match ← Str.sliceFrom slice w.i, ← Str.sliceFrom literal w.j with
    | [], [] => return .done w
    | a :: _, b :: _ =>
      if a = b then return .next (w.exact a) else mismatchTurn slice literal pipes w.flush
    | _, _ => mismatchTurn slice literal pipes w.flush

/-- The walk, for a number of turns at most. -/
def walk (decode : Str → Str) (slice literal : Str) (pipes : Bool) :
    (turns : Nat) → (w : Walk) → Option (Option Walk)
  | 0, _ => none
  | turns + 1, w => do
    match ← turn decode slice literal pipes w with
    | .next w => walk decode slice literal pipes turns w
    | .done w => return some w
    | .stuck => return none

/-- What a piece shows. -/
def Piece.shown (slice literal : Str) (p : Piece) : Option Str :=
  match p.display with
  | none => Str.slice slice p.start p.stop
  | some (a, b) => Str.slice literal a b

/-- The check of the pieces: where they end and what they show, if they follow each other. -/
def rebuild (slice literal : Str) :
    (pieces : List Piece) → (cursor : Nat) → (rebuilt : Str) → Option (Option (Nat × Str))
  | [], cursor, rebuilt => some (some (cursor, rebuilt))
  | p :: pieces, cursor, rebuilt => do
    if p.start ≠ cursor ∨ p.stop < p.start then return none
    rebuild slice literal pieces p.stop (rebuilt ++ (← p.shown slice literal))

/-- `split_pieces`: the pieces of a slice that shows as a literal, where `decode` is what an
    entity reference decodes to. -/
def splitPieces (decode : Str → Str) (slice literal : Str) (pipes : Bool) :
    Option (Option (List Piece)) := do
  match ← walk decode slice literal pipes (Str.len slice + Str.len literal + 1) ⟨[], 0, 0, none⟩ with
  | none => return none
  | some w =>
    let pieces := w.flush.pieces
    match ← rebuild slice literal pieces 0 [] with
    | none => return none
    | some (cursor, rebuilt) =>
      if cursor ≠ Str.len slice ∨ rebuilt ≠ literal then return none
      return some pieces

/-! ## The resync -/

/-- A search that never panics finds nothing, or what one of its turns finds. -/
theorem findSomeM?_spec {α β : Type} {f : α → Option (Option β)} {Q : β → Prop} {l : List α}
    (h : ∀ x ∈ l, ∃ r, f x = some r ∧ ∀ y ∈ r, Q y) :
    ∃ r, l.findSomeM? f = some r ∧ ∀ y ∈ r, Q y := by
  induction l with
  | nil => exact ⟨none, rfl, (fun y hy => by cases hy)⟩
  | cons x l ih =>
    obtain ⟨r, hr, hQ⟩ := h x List.mem_cons_self
    rw [List.findSomeM?, hr]
    cases r with
    | none => exact ih fun y hy => h y (List.mem_cons_of_mem _ hy)
    | some y => exact ⟨some y, rfl, hQ⟩

/-- Skipping characters stops at one. -/
theorem skipChars_spec {literal : Str} {k jj : Nat} (hjj : Str.isCharBoundary literal jj = true) :
    ∃ r, skipChars literal k jj = some r ∧
      ∀ e ∈ r, Str.isCharBoundary literal e = true ∧ jj + k ≤ e := by
  induction k generalizing jj with
  | zero =>
    refine ⟨some jj, rfl, fun e he => ?_⟩
    obtain rfl := Option.some_inj.1 he
    exact ⟨hjj, le_rfl⟩
  | succ k ih =>
    obtain ⟨t, ht⟩ := Str.exists_sliceFrom hjj
    rw [skipChars, ht]
    cases t with
    | nil => exact ⟨none, rfl, (fun e he => by cases he)⟩
    | cons c t =>
      have hnext : Str.isCharBoundary literal (jj + c.utf8Size) = true := by
        have := Str.isCharBoundary_add (p := [c]) ht
        rwa [Str.len_cons, Str.len_nil] at this
      obtain ⟨r, hr, hend⟩ := ih hnext
      refine ⟨r, hr, fun e he => ⟨(hend e he).1, ?_⟩⟩
      have := (hend e he).2
      have := c.utf8Size_pos
      omega

/-- What a resync finds: the next piece takes source bytes or shows characters, and one that takes
    no source bytes leads and shows spaces. -/
structure Resyncs (slice literal : Str) (i j : Nat) (found : Nat × Nat) : Prop where
  source : Str.isCharBoundary slice (i + found.1) = true
  display : ∃ shown, Str.slice literal j found.2 = some shown ∧
    (found.1 = 0 → i = 0 ∧ ∀ c ∈ shown, c = ' ')
  moves : 0 < found.1 ∨ j < found.2

variable {slice literal : Str} {pipes : Bool} {i j : Nat}

/-- A try to line up finds a place where both go on. -/
theorem tryResync_spec (hj : Str.isCharBoundary literal j = true) {pair : Nat × Nat}
    (hpair : 0 < pair.1 + pair.2) :
    ∃ r, tryResync slice literal pipes i j pair = some r ∧
      ∀ found ∈ r, Resyncs slice literal i j found := by
  have hnone : ∃ r, (some none : Option (Option (Nat × Nat))) = some r ∧
      ∀ found ∈ r, Resyncs slice literal i j found := ⟨none, rfl, (fun e he => by cases he)⟩
  obtain ⟨l, k⟩ := pair
  simp only [tryResync, Option.bind_eq_bind, Option.pure_def]
  split
  · exact hnone
  next hlead =>
  split
  · exact hnone
  next hreach =>
  obtain ⟨r, hr, hend⟩ := skipChars_spec (k := k) hj
  rw [hr, Option.bind_some]
  cases r with
  | none => exact hnone
  | some jj =>
    obtain ⟨hjj, hle⟩ := hend jj rfl
    obtain ⟨shown, hshown⟩ := Str.exists_slice hj hjj (by omega)
    -- Both have a character boundary where they are to go on, so that nothing panics.
    have hsource : Str.isCharBoundary slice (i + l) = true := by
      by_contra hb
      exact hreach (Or.inr (Or.inr (Bool.eq_false_iff.2 hb)))
    obtain ⟨s, hs⟩ := Str.exists_sliceFrom hsource
    obtain ⟨t, ht⟩ := Str.exists_sliceFrom hjj
    simp only [hshown, Option.bind_some, hs, ht]
    split
    · exact hnone
    next hspaces =>
    split
    · refine ⟨some (l, jj), rfl, fun found hfound => ?_⟩
      obtain rfl := Option.some_inj.1 hfound
      refine ⟨hsource, ⟨shown, hshown, fun hl => ⟨?_, fun c hc => ?_⟩⟩, ?_⟩
      · by_contra hi
        exact hlead ⟨hl, Nat.pos_of_ne_zero hi⟩
      · by_contra hne
        exact hspaces ⟨hl, List.any_eq_true.2 ⟨c, hc, decide_eq_true hne⟩⟩
      · dsimp only at hpair ⊢
        omega
    · exact hnone

theorem pos_of_mem_resyncPairs {rest : Nat} {pair : Nat × Nat} (h : pair ∈ resyncPairs rest) :
    0 < pair.1 + pair.2 := by
  obtain ⟨cost, hcost, hpair⟩ := List.mem_flatMap.1 h
  obtain ⟨l, hl, rfl⟩ := List.mem_map.1 hpair
  have := List.mem_range'_1.1 hcost
  dsimp only
  omega

/-- The tries to line up find a place where both go on, or none. -/
theorem resync_spec (slice : Str) (pipes : Bool) (i : Nat)
    (hj : Str.isCharBoundary literal j = true) :
    ∃ r, resync slice literal pipes i j = some r ∧ ∀ found ∈ r, Resyncs slice literal i j found :=
  findSomeM?_spec fun _ h => tryResync_spec hj (pos_of_mem_resyncPairs h)

/-! ## The walk -/

/-- A piece whose ranges are on scalar boundaries. -/
structure Piece.OnBoundaries (slice literal : Str) (p : Piece) : Prop where
  start : Str.isCharBoundary slice p.start = true
  stop : Str.isCharBoundary slice p.stop = true
  le : p.start ≤ p.stop
  display : ∀ d ∈ p.display, Str.isCharBoundary literal d.1 = true ∧
    Str.isCharBoundary literal d.2 = true ∧ d.1 ≤ d.2

/-- A piece of no source bytes, which displays only spaces. -/
def Piece.IsVirtual (literal : Str) (p : Piece) : Prop :=
  p.start = p.stop ∧ ∃ d ∈ p.display, ∃ shown, Str.slice literal d.1 d.2 = some shown ∧
    ∀ c ∈ shown, c = ' '

/-- The pieces of no source bytes come before all others. -/
def VirtualFirst (literal : Str) (pieces : List Piece) : Prop :=
  ∃ lead rest, pieces = lead ++ rest ∧ (∀ p ∈ lead, p.IsVirtual literal) ∧
    ∀ p ∈ rest, p.start < p.stop

/-- What every turn of the walk keeps. -/
structure Walk.Sound (slice literal : Str) (w : Walk) : Prop where
  source : Str.isCharBoundary slice w.i = true
  display : Str.isCharBoundary literal w.j = true
  exactStart : ∀ e ∈ w.exactStart, Str.isCharBoundary slice e.1 = true ∧ e.1 < w.i
  onBoundaries : ∀ p ∈ w.pieces, p.OnBoundaries slice literal
  virtualFirst : VirtualFirst literal w.pieces
  ofStart : w.i = 0 → ∀ p ∈ w.pieces, p.IsVirtual literal

variable {w : Walk}

/-- A piece that shows something goes behind what is virtual. -/
theorem VirtualFirst.push {pieces : List Piece} (h : VirtualFirst literal pieces) {p : Piece}
    (hp : p.start < p.stop) : VirtualFirst literal (pieces ++ [p]) := by
  obtain ⟨lead, rest, rfl, hlead, hrest⟩ := h
  refine ⟨lead, rest ++ [p], List.append_assoc _ _ _, hlead, ?_⟩
  exact List.forall_mem_append.2 ⟨hrest, List.forall_mem_singleton.2 hp⟩

theorem Walk.Sound.start (slice literal : Str) : (⟨[], 0, 0, none⟩ : Walk).Sound slice literal :=
  ⟨Str.isCharBoundary_zero _, Str.isCharBoundary_zero _, (fun e he => by cases he),
    fun p hp => absurd hp List.not_mem_nil, ⟨[], [], rfl, by simp, by simp⟩,
    fun _ p hp => absurd hp List.not_mem_nil⟩

theorem Walk.flush_i (w : Walk) : w.flush.i = w.i := by
  rw [flush]
  split <;> rfl

theorem Walk.flush_j (w : Walk) : w.flush.j = w.j := by
  rw [flush]
  split <;> rfl

/-- Flushing the exact piece keeps the walk sound. -/
theorem Walk.Sound.flush (h : w.Sound slice literal) :
    w.flush.Sound slice literal ∧ w.flush.exactStart = none := by
  rw [Walk.flush]
  split
  · next hnone => exact ⟨h, hnone⟩
  · next es ej hsome =>
    obtain ⟨hes, hlt⟩ := h.exactStart _ hsome
    refine ⟨⟨h.source, h.display, (fun e he => by cases he), ?_,
      h.virtualFirst.push (p := ⟨es, w.i, none⟩) hlt,
      fun hi => absurd hi (by dsimp only at hlt ⊢; omega)⟩, rfl⟩
    refine List.forall_mem_append.2 ⟨h.onBoundaries, List.forall_mem_singleton.2 ?_⟩
    exact ⟨hes, h.source, hlt.le, (fun d hd => by cases hd)⟩

/-- A character that both have keeps the walk sound. -/
theorem Walk.Sound.exact (h : w.Sound slice literal) {a : Char} {s t : Str}
    (hs : Str.sliceFrom slice w.i = some (a :: s)) (ht : Str.sliceFrom literal w.j = some (a :: t)) :
    (w.exact a).Sound slice literal := by
  have hpos := a.utf8Size_pos
  have hi := Str.isCharBoundary_add (p := [a]) hs
  have hj := Str.isCharBoundary_add (p := [a]) ht
  rw [Str.len_cons, Str.len_nil] at hi hj
  refine ⟨hi, hj, fun e he => ?_, h.onBoundaries, h.virtualFirst, fun hi' => ?_⟩
  · have he : w.exactStart.or (some (w.i, w.j)) = some e := he
    cases hold : w.exactStart with
    | none =>
      rw [hold, Option.none_or, Option.some_inj] at he
      subst he
      exact ⟨h.source, Nat.lt_add_of_pos_right hpos⟩
    | some e' =>
      rw [hold, Option.some_or, Option.some_inj] at he
      subst he
      obtain ⟨hb, hlt⟩ := h.exactStart e' hold
      exact ⟨hb, Nat.lt_add_right _ hlt⟩
  · have hi' : w.i + a.utf8Size = 0 := hi'
    omega

/-- A piece that replaces another keeps the walk sound. -/
theorem Walk.Sound.replace (h : w.Sound slice literal) (hexact : w.exactStart = none) {l jj : Nat}
    (hfound : Resyncs slice literal w.i w.j (l, jj)) : (w.replace l jj).Sound slice literal := by
  obtain ⟨hsource, ⟨shown, hshown, hvirtual⟩, -⟩ := hfound
  obtain ⟨hj, hjj, hle⟩ := Str.isCharBoundary_of_slice hshown
  have hpiece : Piece.OnBoundaries slice literal ⟨w.i, w.i + l, some (w.j, jj)⟩ := by
    refine ⟨h.source, hsource, Nat.le_add_right _ _, fun d hd => ?_⟩
    obtain rfl := Option.some_inj.1 hd
    exact ⟨hj, hjj, hle⟩
  refine ⟨hsource, hjj, fun e he => ?_, ?_, ?_, fun hi => ?_⟩
  · rw [Walk.replace, hexact] at he
    cases he
  · exact List.forall_mem_append.2 ⟨h.onBoundaries, List.forall_mem_singleton.2 hpiece⟩
  · rcases Nat.eq_zero_or_pos l with rfl | hl
    · -- A piece of no source bytes: it leads, so that all before it are virtual too.
      obtain ⟨hi, hspaces⟩ := hvirtual rfl
      refine ⟨_, [], (List.append_nil _).symm, ?_, by simp⟩
      refine List.forall_mem_append.2 ⟨h.ofStart hi, List.forall_mem_singleton.2 ?_⟩
      exact ⟨rfl, _, rfl, shown, hshown, hspaces⟩
    · exact h.virtualFirst.push (Nat.lt_add_of_pos_right hl)
  · have hi : w.i + l = 0 := hi
    obtain ⟨hi, rfl⟩ := Nat.add_eq_zero_iff.1 hi
    obtain ⟨-, hspaces⟩ := hvirtual rfl
    refine List.forall_mem_append.2 ⟨h.ofStart hi, List.forall_mem_singleton.2 ?_⟩
    exact ⟨rfl, _, rfl, shown, hshown, hspaces⟩

/-- A turn that keeps what the walk keeps, and moves one of its cursors on. -/
def Turn.Moves (slice literal : Str) (w : Walk) : Turn → Prop
  | .next w' => w'.Sound slice literal ∧ w.i + w.j < w'.i + w'.j
  | .done w' => w'.Sound slice literal
  | .stuck => True

/-- The turn of an entity keeps the walk sound, and goes on. -/
theorem entityTurn_spec (decode : Str → Str) (h : w.Sound slice literal) :
    ∃ r, entityTurn decode slice literal w = some r ∧
      ∀ w' ∈ r, w'.Sound slice literal ∧ w.i + w.j < w'.i + w'.j := by
  have hnone : ∃ r, (some none : Option (Option Walk)) = some r ∧
      ∀ w' ∈ r, w'.Sound slice literal ∧ w.i + w.j < w'.i + w'.j :=
    ⟨none, rfl, (fun w' hw' => by cases hw')⟩
  obtain ⟨s, hs⟩ := Str.exists_sliceFrom h.source
  obtain ⟨t, ht⟩ := Str.exists_sliceFrom h.display
  simp only [entityTurn, hs, ht, Option.bind_eq_bind, Option.bind_some, Option.pure_def]
  cases hl : entityLen s with
  | none => exact hnone
  | some l =>
    obtain ⟨reference, rest, rfl, rfl⟩ := exists_reference hl
    have hslice : Str.slice slice w.i (w.i + Str.len reference) = some reference := by
      obtain ⟨p, rfl, hp⟩ := Str.sliceFrom_eq_some.1 hs
      exact Str.slice_eq_some.2 ⟨p, rest, rfl, hp, rfl⟩
    simp only [hslice, Option.bind_some]
    split
    -- What is shown begins with the entity decoded: both go past it.
    · next hshown =>
      obtain ⟨rest', rfl⟩ := List.isPrefixOf_iff_prefix.1 hshown.2
      have hlow := (entityLen_spec hl).three_le
      obtain ⟨hflush, hexact⟩ := h.flush
      refine ⟨_, rfl, fun w' hw' => ?_⟩
      obtain rfl := Option.some_inj.1 hw'
      obtain ⟨p, hp, hlen⟩ := Str.sliceFrom_eq_some.1 ht
      refine ⟨hflush.replace hexact ⟨?_, ⟨decode reference, ?_, fun h0 => ?_⟩, Or.inl ?_⟩, ?_⟩
      · rw [w.flush_i]
        exact Str.isCharBoundary_add hs
      · rw [w.flush_j]
        exact Str.slice_eq_some.2 ⟨p, rest', hp, hlen, rfl⟩
      · dsimp only at h0
        omega
      · dsimp only
        omega
      · rw [Walk.replace, w.flush_i]
        dsimp only
        omega
    · exact hnone

/-- The turn of a mismatch keeps the walk sound, and goes on. -/
theorem mismatchTurn_spec (pipes : Bool) (h : w.Sound slice literal) (hexact : w.exactStart = none) :
    ∃ t, mismatchTurn slice literal pipes w = some t ∧ t.Moves slice literal w := by
  simp only [mismatchTurn, Option.bind_eq_bind, Option.pure_def]
  split
  · exact ⟨.stuck, rfl, trivial⟩
  obtain ⟨r, hr, hfound⟩ := resync_spec slice pipes w.i h.display
  rw [hr, Option.bind_some]
  cases r with
  | none => exact ⟨.stuck, rfl, trivial⟩
  | some found =>
    have hfound := hfound found rfl
    refine ⟨_, rfl, h.replace hexact hfound, ?_⟩
    obtain ⟨shown, hshown, -⟩ := hfound.display
    have hle := (Str.isCharBoundary_of_slice hshown).2.2
    have hmoves := hfound.moves
    rw [Walk.replace]
    dsimp only
    omega

/-- A turn does not panic. -/
theorem turn_spec (decode : Str → Str) (pipes : Bool) (h : w.Sound slice literal) :
    ∃ t, turn decode slice literal pipes w = some t ∧ t.Moves slice literal w := by
  obtain ⟨r, hr, hentity⟩ := entityTurn_spec decode h
  rw [turn, hr]
  cases r with
  | some w' => exact ⟨_, rfl, hentity w' rfl⟩
  | none =>
    obtain ⟨s, hs⟩ := Str.exists_sliceFrom h.source
    obtain ⟨t, ht⟩ := Str.exists_sliceFrom h.display
    -- Where the two differ, or one of them has ended, the turn is that of a mismatch.
    have hmismatch : ∃ t, mismatchTurn slice literal pipes w.flush = some t ∧
        t.Moves slice literal w := by
      obtain ⟨t, hturn, hmoves⟩ := mismatchTurn_spec pipes h.flush.1 h.flush.2
      refine ⟨t, hturn, ?_⟩
      cases t with
      | next w' =>
        obtain ⟨hsound, hlt⟩ := hmoves
        rw [w.flush_i, w.flush_j] at hlt
        exact ⟨hsound, hlt⟩
      | done w' => exact hmoves
      | stuck => trivial
    simp only [Option.bind_eq_bind, Option.bind_some, hs, ht, Option.pure_def]
    cases s with
    | nil =>
      cases t with
      | nil => exact ⟨_, rfl, h⟩
      | cons b t => exact hmismatch
    | cons a s =>
      cases t with
      | nil => exact hmismatch
      | cons b t =>
        dsimp only
        split
        · next hab =>
          subst hab
          have hpos := a.utf8Size_pos
          refine ⟨_, rfl, h.exact hs ht, ?_⟩
          rw [Walk.exact]
          dsimp only
          omega
        · exact hmismatch

/-- The walk ends: the two cursors do not pass the ends of their strings. -/
theorem walk_spec (decode : Str → Str) (pipes : Bool) {turns : Nat} (h : w.Sound slice literal)
    (hturns : Str.len slice + Str.len literal < turns + (w.i + w.j)) :
    ∃ r, walk decode slice literal pipes turns w = some r ∧
      ∀ w' ∈ r, w'.Sound slice literal := by
  induction turns generalizing w with
  | zero =>
    have := Str.le_len_of_isCharBoundary h.source
    have := Str.le_len_of_isCharBoundary h.display
    omega
  | succ turns ih =>
    obtain ⟨t, ht, hmoves⟩ := turn_spec decode pipes h
    rw [walk, ht, Option.bind_eq_bind, Option.bind_some]
    cases t with
    | next w' =>
      obtain ⟨hsound, hlt⟩ := hmoves
      exact ih hsound (by omega)
    | done w' =>
      refine ⟨some w', rfl, fun w'' hw'' => ?_⟩
      obtain rfl := Option.some_inj.1 hw''
      exact hmoves
    | stuck => exact ⟨none, rfl, (fun w' hw' => by cases hw')⟩

/-! ## The pieces -/

/-- The pieces follow each other from one source offset to another. -/
def Follow : (start : Nat) → (pieces : List Piece) → (stop : Nat) → Prop
  | start, [], stop => start = stop
  | start, p :: pieces, stop => p.start = start ∧ start ≤ p.stop ∧ Follow p.stop pieces stop

/-- Pieces that cover a slice exactly and show a literal. -/
structure Covering (slice literal : Str) (pieces : List Piece) : Prop where
  follow : Follow 0 pieces (Str.len slice)
  shows : ∃ shown, pieces.mapM (Piece.shown slice literal) = some shown ∧ shown.flatten = literal
  onBoundaries : ∀ p ∈ pieces, p.OnBoundaries slice literal
  within : ∀ p ∈ pieces, ∀ d ∈ p.display, d.2 ≤ Str.len literal
  virtualFirst : VirtualFirst literal pieces

/-- A piece on boundaries can be shown. -/
theorem Piece.OnBoundaries.shown {p : Piece} (h : p.OnBoundaries slice literal) :
    ∃ t, p.shown slice literal = some t := by
  rw [Piece.shown]
  split
  · exact Str.exists_slice h.start h.stop h.le
  · next a b hdisplay =>
    obtain ⟨ha, hb, hle⟩ := h.display _ hdisplay
    exact Str.exists_slice ha hb hle

/-- The check does not panic, and what it passes follows each other and shows what it rebuilt. -/
theorem rebuild_spec {pieces : List Piece} (h : ∀ p ∈ pieces, p.OnBoundaries slice literal)
    (cursor : Nat) (rebuilt : Str) :
    ∃ r, rebuild slice literal pieces cursor rebuilt = some r ∧
      ∀ checked ∈ r, Follow cursor pieces checked.1 ∧
        ∃ shown, pieces.mapM (Piece.shown slice literal) = some shown ∧
          checked.2 = rebuilt ++ shown.flatten := by
  induction pieces generalizing cursor rebuilt with
  | nil =>
    refine ⟨_, rfl, fun checked hchecked => ?_⟩
    obtain rfl := Option.some_inj.1 hchecked
    exact ⟨rfl, [], rfl, (List.append_nil _).symm⟩
  | cons p pieces ih =>
    obtain ⟨t, ht⟩ := (h p List.mem_cons_self).shown
    rw [rebuild]
    split
    · exact ⟨none, rfl, fun checked hchecked => by cases hchecked⟩
    · next hfollow =>
      obtain ⟨r, hr, hrest⟩ := ih (fun q hq => h q (List.mem_cons_of_mem _ hq)) p.stop
        (rebuilt ++ t)
      rw [ht, Option.bind_eq_bind, Option.bind_some]
      refine ⟨r, hr, fun checked hchecked => ?_⟩
      obtain ⟨hpieces, shown, hshown, heq⟩ := hrest checked hchecked
      refine ⟨⟨by omega, by omega, hpieces⟩, t :: shown, ?_, ?_⟩
      · rw [List.mapM_cons, ht, hshown]
        rfl
      · rw [heq, List.flatten_cons, List.append_assoc]

/-- Splitting ends without a panic, and pieces that are returned cover the slice exactly and show
    the literal: they follow each other on scalar boundaries, none shows what is past the literal,
    and those of no source bytes lead and show spaces. -/
theorem splitPieces_covers (decode : Str → Str) (slice literal : Str) (pipes : Bool) :
    ∃ r, splitPieces decode slice literal pipes = some r ∧
      ∀ pieces ∈ r, Covering slice literal pieces := by
  obtain ⟨r, hr, hwalk⟩ := walk_spec decode pipes (Walk.Sound.start slice literal)
    (Nat.lt_succ_self (Str.len slice + Str.len literal))
  have hnone : ∃ r, (some none : Option (Option (List Piece))) = some r ∧
      ∀ pieces ∈ r, Covering slice literal pieces := ⟨none, rfl, fun p hp => by cases hp⟩
  rw [splitPieces, hr, Option.bind_eq_bind, Option.bind_some]
  cases r with
  | none => exact hnone
  | some w =>
    obtain ⟨hsound, -⟩ := (hwalk w rfl).flush
    obtain ⟨r, hr, hchecked⟩ := rebuild_spec hsound.onBoundaries 0 []
    simp only [hr, Option.bind_eq_bind, Option.bind_some]
    cases r with
    | none => exact hnone
    | some checked =>
      obtain ⟨cursor, rebuilt⟩ := checked
      obtain ⟨hfollow, shown, hshown, hrebuilt⟩ := hchecked _ rfl
      dsimp only
      split
      · exact hnone
      · next hsame =>
        obtain ⟨hcursor, hliteral⟩ := not_or.1 hsame
        rw [not_not] at hcursor hliteral
        refine ⟨_, rfl, fun pieces hpieces => ?_⟩
        obtain rfl := Option.some_inj.1 hpieces
        refine ⟨hcursor ▸ hfollow, ⟨shown, hshown, ?_⟩, hsound.onBoundaries, fun p hp d hd => ?_,
          hsound.virtualFirst⟩
        · rw [← hliteral]
          exact hrebuilt.symm
        · exact Str.le_len_of_isCharBoundary ((hsound.onBoundaries p hp).display d hd).2.1

example : splitPieces (fun _ => ['&']) "x&amp;amp;".toList "x&amp;".toList false =
    some (some [⟨0, 1, none⟩, ⟨1, 6, some (1, 2)⟩, ⟨6, 10, none⟩]) := by decide

example : splitPieces id "\\|b".toList " |b".toList true =
    some (some [⟨0, 0, some (0, 1)⟩, ⟨0, 1, some (1, 1)⟩, ⟨1, 3, none⟩]) := by decide

end Flark.Native
