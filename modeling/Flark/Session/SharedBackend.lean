import Flark.Lib.Runs
import Mathlib.Data.List.Nodup

/-!
# The shared parser

`SharedBackend` of `session/shared_backend.dart`: one parser lent to every holder of a lease.
The first lease loads it, leases asked for during the load wait for it, and disposing the last
lease disposes the parser.

The model is a machine over the calls and the ends of loads, in any order. A load stands for
the future that `_load` returns, and for the parser that it gives; both are named by their
number. The listeners of a future are called as it completes, the one that has waited longest
first: so the first lease that waits for a load resumes as the load ends, and other events may
come between the others.

* `SharedBackend.Invariant`: what every event keeps;
* `SharedBackend.run_lentSafely`: the parser is lent safely in every run.
-/

namespace Flark

/-- How a load stands, and when it ended. -/
inductive Load
  | pending
  | loaded (ended : Nat)
  | failed (ended : Nat)
  deriving DecidableEq, Repr

def Load.ended : Load → Option Nat
  | pending => none
  | loaded t => some t
  | failed t => some t

/-- A lease that waits for a load, and when it was asked for. -/
structure Waiter where
  load : Nat
  asked : Nat
  deriving DecidableEq, Repr

/-- `_LentBackend`: one holder's hold on the parser of a load. `held` is whether `_backend` is
    still set. -/
structure Lent where
  load : Nat
  held : Bool
  deriving DecidableEq, Repr

structure SharedBackend where
  /-- `_parser`: the load of the parser, while any lease holds or awaits it. -/
  parser : Option Nat := none
  /-- `_holders`: leases not yet disposed, and leases still waiting. -/
  holders : Int := 0
  loads : List Load := []
  /-- The leases still waiting, in the order they were asked for. -/
  waiting : List Waiter := []
  /-- The leases given. -/
  leases : List Lent := []
  /-- The parsers disposed. -/
  disposed : List Nat := []
  /-- The number of events so far. -/
  now : Nat := 0
  deriving DecidableEq, Repr

namespace SharedBackend

variable (s : SharedBackend)

/-! ## The calls -/

/-- `lease`, up to where it waits. A loader that throws records nothing. -/
def lease (throws : Bool) : SharedBackend :=
  match s.parser with
  | none =>
    if throws then s
    else { s with
      parser := some s.loads.length
      loads := s.loads ++ [.pending]
      holders := s.holders + 1
      waiting := s.waiting ++ [⟨s.loads.length, s.now⟩] }
  | some load => { s with
      holders := s.holders + 1
      waiting := s.waiting ++ [⟨load, s.now⟩] }

/-- The rest of `lease`, once the load of waiter `i` has ended. -/
def resume (i : Nat) : Option SharedBackend :=
  match s.waiting[i]? with
  | none => none
  | some w =>
    let s := { s with waiting := s.waiting.eraseIdx i }
    match s.loads[w.load]? with
    | some (.loaded _) => some { s with leases := s.leases ++ [⟨w.load, true⟩] }
    | some (.failed _) => some { s with
        holders := s.holders - 1
        -- A lease that retried may already have started the next load.
        parser := if s.parser = some w.load then none else s.parser }
    | _ => none

/-- `_release`. -/
def release (load : Nat) : SharedBackend :=
  if 0 < s.holders - 1 then { s with holders := s.holders - 1 }
  else { s with
    holders := s.holders - 1
    parser := none
    disposed := s.disposed ++ [load] }

/-- `_LentBackend.dispose`, of lease `i`. -/
def dispose (i : Nat) : Option SharedBackend :=
  match s.leases[i]? with
  | none => none
  | some lent =>
    if lent.held then
      some (release { s with leases := s.leases.set i { lent with held := false } } lent.load)
    else some s

/-! ## The order in which leases resume -/

/-- The load ended before the time. -/
def endedBefore (load time : Nat) : Bool := ((s.loads[load]?).bind Load.ended).any (· < time)

/-- Waiter `w'` resumes before `w`: it was asked for before, and it waits for the same load, or
    for one that ended before `w` was asked for. -/
def precedes (w' w : Waiter) : Bool :=
  decide (w'.asked < w.asked) && (w'.load == w.load || s.endedBefore w'.load w.asked)

/-- The leases waiting for a load resume in the order they were asked for, and before any lease
    asked for after that load ended. -/
def mayResume (i : Nat) : Bool :=
  (s.waiting[i]?).any fun w => !s.waiting.any fun w' => s.precedes w' w

/-! ## Events -/

inductive Event
  | lease (throws : Bool)
  | loadEnds (load : Nat) (success : Bool)
  | resume (i : Nat)
  | dispose (i : Nat)
  deriving DecidableEq, Repr

/-- The load ends, and the lease that has waited longest for it resumes. -/
def loadEnds (load : Nat) (success : Bool) : Option SharedBackend :=
  if s.loads[load]? = some .pending then
    let s := { s with loads := s.loads.set load (if success then .loaded s.now else .failed s.now) }
    match s.waiting.findIdx? fun w => w.load == load with
    | none => some s
    | some i => if s.mayResume i then s.resume i else none
  else none

def act : Event → Option SharedBackend
  | .lease throws => some (s.lease throws)
  | .loadEnds load success => s.loadEnds load success
  | .resume i => if s.mayResume i then s.resume i else none
  | .dispose i => s.dispose i

def tick (s : SharedBackend) : SharedBackend := { s with now := s.now + 1 }

def step (e : Event) : Option SharedBackend := (s.act e).map tick

/-! ## What every event keeps -/

/-- The leases not yet disposed. -/
def held : List Lent := s.leases.filter Lent.held

structure Invariant : Prop where
  /-- A lease counts from the moment it is asked for. -/
  holders : s.holders = (s.held.length + s.waiting.length : Nat)
  order : s.waiting.Pairwise fun w w' => w.asked < w'.asked ∧ w.load ≤ w'.load
  /-- A lease waits for the newest load there was when it was asked for: the others had ended. -/
  earlier : ∀ w ∈ s.waiting, ∀ load < w.load, s.endedBefore load w.asked = true
  waits : ∀ w ∈ s.waiting, s.parser = some w.load ∨ ∃ t, s.loads[w.load]? = some (.failed t)
  current : ∀ load, s.parser = some load → load + 1 = s.loads.length
  pending : ∀ load : Nat, s.loads[load]? = some .pending → s.parser = some load
  lent : ∀ l ∈ s.held, s.parser = some l.load ∧ ∃ t, s.loads[l.load]? = some (.loaded t)
  /-- No lease still waits for an earlier load once the parser is there. -/
  arrived : ∀ load t, s.parser = some load → s.loads[load]? = some (.loaded t) →
    ∀ w ∈ s.waiting, w.load = load
  used : ∀ load, s.parser = some load →
    (∃ w ∈ s.waiting, w.load = load) ∨ ∃ l ∈ s.held, l.load = load
  kept : ∀ load, s.parser = some load → load ∉ s.disposed
  gone : ∀ (load t : Nat), s.loads[load]? = some (.loaded t) → s.parser ≠ some load →
    load ∈ s.disposed
  once : s.disposed.Nodup
  disposed_loaded : ∀ load ∈ s.disposed, ∃ t, s.loads[load]? = some (.loaded t)

/-- What happened, happened before the time. -/
structure Timely (time : Nat) : Prop where
  asked : ∀ w ∈ s.waiting, w.asked < time
  ended : ∀ load t : Nat, (s.loads[load]?).bind Load.ended = some t → t < time

/-- A failed load is forgotten. -/
def Forgotten : Prop := ∀ load t, s.parser = some load → s.loads[load]? ≠ some (.failed t)

variable {s}

/-- The backend starts with the invariant. -/
theorem invariant_init : Invariant {} where
  holders := rfl
  order := List.Pairwise.nil
  earlier := fun _ h => nomatch h
  waits := fun _ h => nomatch h
  current := fun _ h => nomatch h
  pending := fun _ h => nomatch h
  lent := fun _ h => nomatch h
  arrived := fun _ _ h => nomatch h
  used := fun _ h => nomatch h
  kept := fun _ h => nomatch h
  gone := fun _ _ h => nomatch h
  once := List.nodup_nil
  disposed_loaded := fun _ h => nomatch h

/-- A load ended before a time if it has ended, at an earlier one. -/
theorem endedBefore_iff {load time : Nat} : s.endedBefore load time = true ↔
    ∃ t, (s.loads[load]?).bind Load.ended = some t ∧ t < time := by
  rw [endedBefore, Option.any_eq_true]
  simp only [decide_eq_true_eq]

/-- Only the lease that has waited longest may resume. -/
theorem eq_zero_of_mayResume
    (horder : s.waiting.Pairwise fun w w' => w.asked < w'.asked ∧ w.load ≤ w'.load)
    (hearlier : ∀ w ∈ s.waiting, ∀ load < w.load, s.endedBefore load w.asked = true) {i : Nat}
    (hi : s.mayResume i = true) : i = 0 := by
  rw [mayResume, Option.any_eq_true] at hi
  obtain ⟨w, hw, hfirst⟩ := hi
  by_contra hpos
  obtain ⟨hlt, hwi⟩ := List.getElem?_eq_some_iff.1 hw
  have h₀ : 0 < s.waiting.length := by omega
  obtain ⟨hasked, hload⟩ := List.pairwise_iff_getElem.1 horder 0 i h₀ hlt (by omega)
  rw [hwi] at hasked hload
  rw [Bool.not_eq_true', List.any_eq_false] at hfirst
  refine hfirst s.waiting[0] (List.getElem_mem h₀) ?_
  rw [precedes, Bool.and_eq_true, decide_eq_true_eq, Bool.or_eq_true, beq_iff_eq]
  refine ⟨hasked, ?_⟩
  -- It waits for the same load, or for one that had ended.
  rcases Nat.lt_or_eq_of_le hload with hload | hload
  · exact Or.inr (hearlier w (List.mem_of_getElem? hw) _ hload)
  · exact Or.inl hload

namespace Invariant

variable (h : s.Invariant)

include h

/-- Every load but the one of the parser has ended. -/
theorem endedBefore (ht : s.Timely s.now) {load : Nat} (hlt : load < s.loads.length)
    (hne : s.parser ≠ some load) : s.endedBefore load s.now = true := by
  rw [endedBefore_iff]
  cases hload : s.loads[load] with
  | pending =>
    refine absurd (h.pending load ?_) hne
    rw [List.getElem?_eq_getElem hlt, hload]
  | loaded t | failed t =>
    have hended : (s.loads[load]?).bind Load.ended = some t := by
      rw [List.getElem?_eq_getElem hlt, hload]
      rfl
    exact ⟨t, hended, ht.ended load t hended⟩

/-- A waiter waits for a load that was started. -/
theorem load_lt {w : Waiter} (hw : w ∈ s.waiting) : w.load < s.loads.length := by
  rcases h.waits w hw with hparser | ⟨t, hfailed⟩
  · have := h.current w.load hparser
    omega
  · exact (List.getElem?_eq_some_iff.1 hfailed).1

end Invariant

/-! ### Asking for a lease -/

/-- A load that ended has ended when others are started. -/
theorem endedBefore_append {load time : Nat} {added : Load}
    (h : s.endedBefore load time = true) :
    ({ s with loads := s.loads ++ [added] } : SharedBackend).endedBefore load time = true := by
  obtain ⟨t, ht, hlt⟩ := endedBefore_iff.1 h
  refine endedBefore_iff.2 ⟨t, ?_, hlt⟩
  obtain ⟨l, hl, hended⟩ := Option.bind_eq_some_iff.1 ht
  have := (List.getElem?_eq_some_iff.1 hl).1
  dsimp only
  rw [List.getElem?_append_left this, hl]
  exact hended

/-- A load is one there was, or the one that is started. -/
theorem loads_append {loads : List Load} {added x : Load} {load : Nat}
    (h : (loads ++ [added])[load]? = some x) :
    loads[load]? = some x ∨ load = loads.length ∧ x = added := by
  rcases Nat.lt_or_ge load loads.length with hlt | hge
  · rw [List.getElem?_append_left hlt] at h
    exact Or.inl h
  · have hlt := (List.getElem?_eq_some_iff.1 h).1
    rw [List.length_append, List.length_singleton] at hlt
    obtain rfl : load = loads.length := by omega
    rw [List.getElem?_concat_length, Option.some_inj] at h
    exact Or.inr ⟨rfl, h.symm⟩

/-- A lease that waits for the parser's load. -/
theorem Invariant.wait (h : s.Invariant) (ht : s.Timely s.now) {load : Nat}
    (hparser : s.parser = some load) :
    Invariant { s with
      holders := s.holders + 1
      waiting := s.waiting ++ [⟨load, s.now⟩] } where
  holders := by
    have := h.holders
    simp only [held, List.length_append, List.length_singleton] at this ⊢
    omega
  order := by
    refine List.pairwise_append.2 ⟨h.order, List.pairwise_singleton _ _, fun w hw w' hw' => ?_⟩
    obtain rfl := List.mem_singleton.1 hw'
    have := h.load_lt hw
    have := h.current load hparser
    exact ⟨ht.asked w hw, by dsimp only; omega⟩
  -- The loads before this one have ended, as it is the parser's.
  earlier w hw earlier hlt := by
    rcases List.mem_append.1 hw with hw | hw
    · exact h.earlier w hw earlier hlt
    · obtain rfl := List.mem_singleton.1 hw
      have := h.current load hparser
      dsimp only at hlt
      refine h.endedBefore ht (by omega) fun heq => ?_
      rw [hparser, Option.some_inj] at heq
      omega
  waits w hw := by
    rcases List.mem_append.1 hw with hw | hw
    · exact h.waits w hw
    · obtain rfl := List.mem_singleton.1 hw
      exact Or.inl hparser
  current := h.current
  pending := h.pending
  lent := h.lent
  arrived load' t hparser' hloaded w hw := by
    rcases List.mem_append.1 hw with hw | hw
    · exact h.arrived load' t hparser' hloaded w hw
    · obtain rfl := List.mem_singleton.1 hw
      exact Option.some_inj.1 (hparser.symm.trans hparser')
  used load' hparser' := by
    rw [hparser, Option.some_inj] at hparser'
    exact Or.inl ⟨⟨load, s.now⟩, by simp, hparser'⟩
  kept := h.kept
  gone := h.gone
  once := h.once
  disposed_loaded := h.disposed_loaded

/-- A load that starts, with its first lease waiting. -/
theorem Invariant.start (h : s.Invariant) (ht : s.Timely s.now) (hparser : s.parser = none) :
    Invariant { s with
      parser := some s.loads.length
      loads := s.loads ++ [.pending]
      holders := s.holders + 1
      waiting := s.waiting ++ [⟨s.loads.length, s.now⟩] } where
  holders := by
    have := h.holders
    simp only [held, List.length_append, List.length_singleton] at this ⊢
    omega
  order := by
    refine List.pairwise_append.2 ⟨h.order, List.pairwise_singleton _ _, fun w hw w' hw' => ?_⟩
    obtain rfl := List.mem_singleton.1 hw'
    exact ⟨ht.asked w hw, Nat.le_of_lt (h.load_lt hw)⟩
  earlier w hw earlier hlt := by
    refine endedBefore_append (s := s) ?_
    rcases List.mem_append.1 hw with hw | hw
    · exact h.earlier w hw earlier hlt
    · obtain rfl := List.mem_singleton.1 hw
      exact h.endedBefore ht hlt (by rw [hparser]; nofun)
  -- The leases that wait already are those of a load that failed, as the parser is none.
  waits w hw := by
    rcases List.mem_append.1 hw with hw | hw
    · rcases h.waits w hw with hparser' | ⟨t, hfailed⟩
      · rw [hparser] at hparser'
        cases hparser'
      · refine Or.inr ⟨t, ?_⟩
        rwa [List.getElem?_append_left (List.getElem?_eq_some_iff.1 hfailed).1]
    · obtain rfl := List.mem_singleton.1 hw
      exact Or.inl rfl
  current load hload := by
    obtain rfl := Option.some_inj.1 hload
    rw [List.length_append, List.length_singleton]
  pending load hload := by
    rcases loads_append hload with hload | ⟨rfl, -⟩
    · have := h.pending load hload
      rw [hparser] at this
      cases this
    · rfl
  lent l hl := by
    have := (h.lent l hl).1
    rw [hparser] at this
    cases this
  arrived load t hload hloaded := by
    obtain rfl := Option.some_inj.1 hload
    rw [List.getElem?_concat_length] at hloaded
    cases hloaded
  used load hload := Or.inl ⟨⟨s.loads.length, s.now⟩, by simp, Option.some_inj.1 hload⟩
  kept load hload := by
    obtain rfl := Option.some_inj.1 hload
    rintro hmem
    obtain ⟨t, hloaded⟩ := h.disposed_loaded _ hmem
    exact Nat.lt_irrefl _ (List.getElem?_eq_some_iff.1 hloaded).1
  gone load t hloaded _ := by
    rcases loads_append hloaded with hloaded | ⟨-, hpending⟩
    · exact h.gone load t hloaded (by rw [hparser]; nofun)
    · cases hpending
  once := h.once
  disposed_loaded load hload := by
    obtain ⟨t, hloaded⟩ := h.disposed_loaded load hload
    refine ⟨t, ?_⟩
    rwa [List.getElem?_append_left (List.getElem?_eq_some_iff.1 hloaded).1]

/-- A lease keeps the invariant, served or waiting. -/
theorem Invariant.lease (h : s.Invariant) (ht : s.Timely s.now) (throws : Bool) :
    (s.lease throws).Invariant := by
  rw [SharedBackend.lease]
  split
  · next hparser =>
    split
    · exact h
    · exact h.start ht hparser
  · next load hparser => exact h.wait ht hparser

/-! ### Disposing a lease -/

/-- A lease that is given back is taken out of those held. -/
theorem held_set {i : Nat} {lent : Lent} (hi : s.leases[i]? = some lent) (hheld : lent.held = true) :
    ∃ before after, s.held = before ++ lent :: after ∧
      ({ s with leases := s.leases.set i { lent with held := false } } : SharedBackend).held =
        before ++ after := by
  obtain ⟨hlt, rfl⟩ := List.getElem?_eq_some_iff.1 hi
  obtain ⟨l₁, l₂, hl, hlen, hset⟩ :=
    @List.exists_of_set _ i { s.leases[i] with held := false } _ hlt
  refine ⟨l₁.filter Lent.held, l₂.filter Lent.held, ?_, ?_⟩
  · rw [held]
    conv_lhs => rw [hl]
    rw [List.filter_append, List.filter_cons_of_pos hheld]
  · rw [held, hset, List.filter_append, List.filter_cons_of_neg (by nofun)]

/-- A lease that is given back keeps the invariant, the last one and the others. -/
theorem Invariant.release (h : s.Invariant) {i : Nat} {lent : Lent} (hi : s.leases[i]? = some lent)
    (hheld : lent.held = true) :
    (SharedBackend.release { s with leases := s.leases.set i { lent with held := false } }
      lent.load).Invariant := by
  obtain ⟨before, after, hold, hnew⟩ := held_set hi hheld
  obtain ⟨hparser, t, hloaded⟩ := h.lent lent (by rw [hold]; simp)
  have hcount := h.holders
  rw [hold, List.length_append, List.length_cons] at hcount
  have hlent : ∀ l ∈ before ++ after, l ∈ s.held := by
    intro l hl
    rw [hold]
    rcases List.mem_append.1 hl with hl | hl
    · exact List.mem_append_left _ hl
    · exact List.mem_append_right _ (List.mem_cons_of_mem _ hl)
  have hlen := congrArg List.length hnew
  rw [List.length_append] at hlen
  rw [SharedBackend.release]
  dsimp only
  split
  · next hmore =>
    refine
      { holders := ?_
        order := h.order
        earlier := h.earlier
        waits := h.waits
        current := h.current
        pending := h.pending
        lent := fun l hl => h.lent l (hlent l (hnew ▸ hl))
        arrived := h.arrived
        used := fun load hload => ?_
        kept := h.kept
        gone := h.gone
        once := h.once
        disposed_loaded := h.disposed_loaded }
    · simp only [held] at hlen ⊢
      omega
    · -- The leases that are left are of the same parser.
      cases hrest : before ++ after with
      | nil =>
        rw [List.append_eq_nil_iff] at hrest
        rw [hrest.1, hrest.2, List.length_nil] at hcount
        obtain ⟨w, hw⟩ := List.exists_mem_of_length_pos (show 0 < s.waiting.length by omega)
        exact Or.inl ⟨w, hw, h.arrived load t hload (Option.some_inj.1 (hparser.symm.trans hload) ▸ hloaded)
          w hw⟩
      | cons l rest =>
        have hl : l ∈ before ++ after := hrest ▸ List.mem_cons_self
        refine Or.inr ⟨l, hnew ▸ hl, ?_⟩
        exact Option.some_inj.1 ((h.lent l (hlent l hl)).1.symm.trans hload)
  · next hlast =>
    -- No lease is left, so nothing waits and nothing is held.
    have hnone : before ++ after = [] := by
      rw [← List.length_eq_zero_iff, List.length_append]
      omega
    have hwaiting : s.waiting = [] := by
      rw [← List.length_eq_zero_iff]
      omega
    refine
      { holders := ?_
        order := h.order
        earlier := h.earlier
        waits := fun w hw => ?_
        current := nofun
        pending := fun load hload => ?_
        lent := fun l hl => ?_
        arrived := nofun
        used := nofun
        kept := nofun
        gone := fun load t' hload _ => ?_
        once := ?_
        disposed_loaded := fun load hload => ?_ }
    · simp only [held] at hlen ⊢
      omega
    · rw [hwaiting] at hw
      cases hw
    · have := h.pending load hload
      rw [hparser, Option.some_inj] at this
      rw [← this, hloaded] at hload
      cases hload
    · have hl : l ∈ before ++ after := hnew ▸ hl
      rw [hnone] at hl
      cases hl
    · by_cases hsame : s.parser = some load
      · rw [hparser, Option.some_inj] at hsame
        exact List.mem_append_right _ (List.mem_singleton.2 hsame.symm)
      · exact List.mem_append_left _ (h.gone load t' hload hsame)
    · refine List.nodup_append.2 ⟨h.once, List.nodup_singleton _, ?_⟩
      rintro load hload _ hload' rfl
      rw [List.mem_singleton.1 hload'] at hload
      exact h.kept lent.load hparser hload
    · rcases List.mem_append.1 hload with hload | hload
      · exact h.disposed_loaded load hload
      · rw [List.mem_singleton.1 hload]
        exact ⟨t, hloaded⟩

/-- The disposal of a lease keeps the invariant. -/
theorem Invariant.dispose (h : s.Invariant) {i : Nat} {s' : SharedBackend}
    (hs : s.dispose i = some s') : s'.Invariant := by
  rw [SharedBackend.dispose] at hs
  split at hs
  · cases hs
  · next lent hi =>
    split at hs
    · next hheld =>
      cases hs
      exact h.release hi hheld
    · cases hs
      exact h

/-! ### Resuming -/

/-- A waiter that resumes keeps the invariant: its load has ended, one way or the other, or is not
    current any more. -/
theorem Invariant.resume (h : s.Invariant) {s' : SharedBackend} (hs : s.resume 0 = some s') :
    s'.Invariant := by
  rw [SharedBackend.resume] at hs
  cases hwaiting : s.waiting with
  | nil =>
    rw [hwaiting] at hs
    cases hs
  | cons w rest =>
    have hrest : ∀ w' ∈ rest, w' ∈ s.waiting := fun w' hw' => hwaiting ▸ List.mem_cons_of_mem w hw'
    have hw : w ∈ s.waiting := hwaiting ▸ List.mem_cons_self
    have hcount := h.holders
    have horder := h.order
    rw [hwaiting] at hs hcount horder
    rw [List.length_cons] at hcount
    have horder := (List.pairwise_cons.1 horder).2
    simp only [List.getElem?_cons_zero, List.eraseIdx_cons_zero] at hs
    split at hs
    · next t hloaded =>
      -- The lease is given, and counts as before.
      cases hs
      have hparser : s.parser = some w.load := by
        refine (h.waits w hw).resolve_right ?_
        rintro ⟨t', hfailed⟩
        rw [hloaded] at hfailed
        cases hfailed
      refine
        { holders := ?_
          order := horder
          earlier := fun w' hw' => h.earlier w' (hrest w' hw')
          waits := fun w' hw' => h.waits w' (hrest w' hw')
          current := h.current
          pending := h.pending
          lent := fun l hl => ?_
          arrived := fun load t' hload hloaded' w' hw' =>
            h.arrived load t' hload hloaded' w' (hrest w' hw')
          used := fun load hload => Or.inr ⟨⟨w.load, true⟩, ?_, ?_⟩
          kept := h.kept
          gone := h.gone
          once := h.once
          disposed_loaded := h.disposed_loaded }
      · simp only [held, List.filter_append, List.length_append] at hcount ⊢
        simp only [List.filter_cons_of_pos, List.filter_nil, List.length_singleton]
        omega
      · simp only [held, List.filter_append, List.mem_append] at hl
        rcases hl with hl | hl
        · exact h.lent l hl
        · obtain rfl := List.mem_singleton.1 hl
          exact ⟨hparser, t, hloaded⟩
      · simp [held]
      · exact Option.some_inj.1 (hparser.symm.trans hload)
    · next t hfailed =>
      cases hs
      -- Where the failed load is forgotten, nothing was lent of it.
      have hparser : ∀ load, (if s.parser = some w.load then none else s.parser) = some load →
          s.parser = some load ∧ load ≠ w.load := by
        intro load hload
        split at hload
        · cases hload
        · next hother =>
          refine ⟨hload, ?_⟩
          rintro rfl
          exact hother hload
      refine
        { holders := ?_
          order := horder
          earlier := fun w' hw' => h.earlier w' (hrest w' hw')
          waits := fun w' hw' => ?_
          current := fun load hload => h.current load (hparser load hload).1
          pending := fun load hload => ?_
          lent := fun l hl => ?_
          arrived := fun load t' hload hloaded w' hw' =>
            h.arrived load t' (hparser load hload).1 hloaded w' (hrest w' hw')
          used := fun load hload => ?_
          kept := fun load hload => h.kept load (hparser load hload).1
          gone := fun load t' hload hother => ?_
          once := h.once
          disposed_loaded := h.disposed_loaded }
      · simp only [held] at hcount ⊢
        omega
      · dsimp only
        rcases h.waits w' (hrest w' hw') with hload | hload
        · by_cases hsame : s.parser = some w.load
          · rw [hsame, Option.some_inj] at hload
            exact Or.inr ⟨t, hload ▸ hfailed⟩
          · rw [if_neg hsame]
            exact Or.inl hload
        · exact Or.inr hload
      · have hload' := h.pending load hload
        dsimp only
        rw [if_neg, hload']
        intro hsame
        rw [hload', Option.some_inj] at hsame
        rw [hsame, hfailed] at hload
        cases hload
      · obtain ⟨hload, t', hloaded⟩ := h.lent l hl
        dsimp only
        rw [if_neg, hload]
        · exact ⟨rfl, t', hloaded⟩
        · intro hsame
          rw [hload, Option.some_inj] at hsame
          rw [hsame, hfailed] at hloaded
          cases hloaded
      · obtain ⟨hload, hne⟩ := hparser load hload
        refine (h.used load hload).imp_left ?_
        rintro ⟨w', hw', hsame⟩
        rw [hwaiting] at hw'
        rcases List.mem_cons.1 hw' with rfl | hw'
        · exact absurd hsame.symm hne
        · exact ⟨w', hw', hsame⟩
      · refine h.gone load t' hload fun hsame => hother ?_
        dsimp only
        rw [if_neg, hsame]
        intro hsame'
        rw [hsame, Option.some_inj] at hsame'
        rw [hsame', hfailed] at hload
        cases hload
    · cases hs

/-! ### The end of a load -/

/-- The state in which a load has ended and nothing has resumed yet. -/
def ended (s : SharedBackend) (load : Nat) (success : Bool) : SharedBackend :=
  { s with loads := s.loads.set load (if success then .loaded s.now else .failed s.now) }

/-- The end of a load changes that load only. -/
theorem loads_ended {load other : Nat} {success : Bool} {x : Load}
    (h : (s.ended load success).loads[other]? = some x) :
    (load = other ∧ x = if success then .loaded s.now else .failed s.now) ∨
      (load ≠ other ∧ s.loads[other]? = some x) := by
  rw [ended, List.getElem?_set] at h
  by_cases hsame : load = other
  · rw [if_pos hsame] at h
    split at h
    · exact Or.inl ⟨hsame, (Option.some_inj.1 h).symm⟩
    · cases h
  · rw [if_neg hsame] at h
    exact Or.inr ⟨hsame, h⟩

theorem loads_ended_of_ne {load other : Nat} {success : Bool} (h : load ≠ other) :
    (s.ended load success).loads[other]? = s.loads[other]? := by
  rw [ended, List.getElem?_set, if_neg h]

/-- What ended before has ended when another load ends. -/
theorem endedBefore_ended {load other time : Nat} (hload : s.loads[load]? = some .pending)
    (success : Bool) (h : s.endedBefore other time = true) :
    (s.ended load success).endedBefore other time = true := by
  obtain ⟨t, ht, hlt⟩ := endedBefore_iff.1 h
  refine endedBefore_iff.2 ⟨t, ?_, hlt⟩
  rw [loads_ended_of_ne, ht]
  rintro rfl
  rw [hload] at ht
  cases ht

/-- The end of a load, seen from before anything resumes. A load that succeeds has to have no
    lease of an earlier load before its own. -/
theorem Invariant.ended (h : s.Invariant) {load : Nat} (hload : s.loads[load]? = some .pending)
    (success : Bool) (hfirst : ∀ w ∈ s.waiting, w.load = load) :
    (s.ended load success).Invariant := by
  have hparser := h.pending load hload
  -- No lease is of the load yet.
  have hne : ∀ {other : Nat} {x : Load}, s.loads[other]? = some x → x ≠ .pending → load ≠ other := by
    rintro other x hother hx rfl
    rw [hload, Option.some_inj] at hother
    exact hx hother.symm
  refine
    { holders := h.holders
      order := h.order
      earlier := fun w hw earlier hlt => ?_
      waits := fun w hw => Or.inl (by rw [hfirst w hw]; exact hparser)
      current := fun other hother => ?_
      pending := fun other hother => ?_
      lent := fun l hl => ?_
      arrived := fun other t hother _ w hw => ?_
      used := h.used
      kept := h.kept
      gone := fun other t hother hgone => ?_
      once := h.once
      disposed_loaded := fun other hother => ?_ }
  · exact endedBefore_ended hload success (h.earlier w hw earlier hlt)
  · have := h.current other hother
    rwa [SharedBackend.ended, List.length_set]
  · rcases loads_ended hother with ⟨-, hx⟩ | ⟨-, hother⟩
    · cases success <;> cases hx
    · exact h.pending other hother
  · obtain ⟨hl', t, hloaded⟩ := h.lent l hl
    refine ⟨hl', t, ?_⟩
    rw [loads_ended_of_ne (hne hloaded (by nofun))]
    exact hloaded
  · rw [hfirst w hw]
    exact Option.some_inj.1 (hparser.symm.trans hother)
  · rcases loads_ended hother with ⟨rfl, -⟩ | ⟨-, hother⟩
    · exact absurd hparser hgone
    · exact h.gone other t hother hgone
  · obtain ⟨t, hloaded⟩ := h.disposed_loaded other hother
    refine ⟨t, ?_⟩
    rwa [loads_ended_of_ne (hne hloaded (by nofun))]

/-- What resumes as a load ends is the lease that has waited longest, for that load as all
    others do. -/
theorem loadEnds_eq (h : s.Invariant) {load : Nat} {success : Bool} {s' : SharedBackend}
    (hs : s.loadEnds load success = some s') : s.loads[load]? = some .pending ∧
      (∀ w ∈ s.waiting, w.load = load) ∧ (s.ended load success).resume 0 = some s' := by
  rw [SharedBackend.loadEnds] at hs
  split at hs
  · next hload =>
    have hparser := h.pending load hload
    have hwaiting : (s.ended load success).waiting = s.waiting := rfl
    change (match (s.ended load success).waiting.findIdx? fun w => w.load == load with
      | none => some (s.ended load success)
      | some i => if (s.ended load success).mayResume i then (s.ended load success).resume i
        else none) = some s' at hs
    split at hs
    · next hnone =>
      -- Some lease waits for the load, since none has been given.
      rw [List.findIdx?_eq_none_iff] at hnone
      rcases h.used load hparser with ⟨w, hw, hsame⟩ | ⟨l, hl, rfl⟩
      · have := hnone w hw
        rw [beq_eq_false_iff_ne] at this
        exact absurd hsame this
      · obtain ⟨-, t, hloaded⟩ := h.lent l hl
        rw [hload] at hloaded
        cases hloaded
    · next i hi =>
      split at hs
      · next hmay =>
        obtain rfl := eq_zero_of_mayResume (s := s.ended load success) h.order
          (fun w hw earlier hlt => endedBefore_ended hload success (h.earlier w hw earlier hlt)) hmay
        obtain ⟨hlt, hfirst, -⟩ := List.findIdx?_eq_some_iff_getElem.1 hi
        rw [beq_iff_eq] at hfirst
        refine ⟨hload, fun w hw => ?_, hs⟩
        -- The others wait for a load that is no earlier, and there is no later one.
        obtain ⟨j, hj, rfl⟩ := List.getElem_of_mem hw
        have hle := h.load_lt hw
        have hlast := h.current load hparser
        rcases Nat.eq_zero_or_pos j with rfl | hpos
        · exact hfirst
        · have := (List.pairwise_iff_getElem.1 h.order 0 j hlt hj hpos).2
          have hfirst : s.waiting[0].load = load := hfirst
          omega
      · cases hs
  · cases hs

/-- The end of a load keeps the invariant. -/
theorem Invariant.loadEnds (h : s.Invariant) {load : Nat} {success : Bool} {s' : SharedBackend}
    (hs : s.loadEnds load success = some s') : s'.Invariant := by
  obtain ⟨hload, hfirst, hs⟩ := loadEnds_eq h hs
  exact (h.ended hload success hfirst).resume hs

/-! ### A step -/

/-- What resuming changes: a lease that fails with the parser's load forgets it. -/
theorem resume_eq {i : Nat} {s' : SharedBackend} (hs : s.resume i = some s') :
    s'.waiting = s.waiting.eraseIdx i ∧ s'.loads = s.loads ∧ s'.now = s.now ∧
      ∃ w, s.waiting[i]? = some w ∧
        (s'.parser = s.parser ∧ (∃ t, s.loads[w.load]? = some (.loaded t)) ∧
            s'.leases = s.leases ++ [⟨w.load, true⟩] ∨
          s'.parser = (if s.parser = some w.load then none else s.parser) ∧
            s'.leases = s.leases) := by
  rw [resume] at hs
  split at hs
  · cases hs
  · next w hw =>
    dsimp only at hs
    split at hs
    · next t hloaded =>
      cases hs
      exact ⟨rfl, rfl, rfl, w, hw, Or.inl ⟨rfl, ⟨t, hloaded⟩, rfl⟩⟩
    · cases hs
      exact ⟨rfl, rfl, rfl, w, hw, Or.inr ⟨rfl, rfl⟩⟩
    · cases hs

/-- What disposing a lease changes: the last one forgets the parser. -/
theorem dispose_eq {i : Nat} {s' : SharedBackend} (hs : s.dispose i = some s') :
    s'.waiting = s.waiting ∧ s'.loads = s.loads ∧ s'.now = s.now ∧
      (s'.parser = s.parser ∨ s'.parser = none) ∧
      ∃ lent, s.leases[i]? = some lent ∧ s'.leases = s.leases.set i { lent with held := false } := by
  rw [dispose] at hs
  split at hs
  · cases hs
  · next lent hi =>
    split at hs
    · cases hs
      rw [release]
      split
      · exact ⟨rfl, rfl, rfl, Or.inl rfl, lent, hi, rfl⟩
      · exact ⟨rfl, rfl, rfl, Or.inr rfl, lent, hi, rfl⟩
    · next hheld =>
      cases hs
      refine ⟨rfl, rfl, rfl, Or.inl rfl, lent, hi, ?_⟩
      -- The lease was disposed before.
      obtain ⟨hlt, rfl⟩ := List.getElem?_eq_some_iff.1 hi
      rw [Bool.not_eq_true] at hheld
      rw [← hheld, List.set_getElem_self]

/-- Fewer waiters are as timely. -/
theorem Timely.mono {s' : SharedBackend} {time : Nat} (ht : s.Timely time)
    (hwaiting : ∀ w ∈ s'.waiting, w ∈ s.waiting) (hloads : s'.loads = s.loads) : s'.Timely time :=
  ⟨fun w hw => ht.asked w (hwaiting w hw), fun load t h => ht.ended load t (hloads ▸ h)⟩

/-- Every event leaves the waiters timely. -/
theorem Timely.act (h : s.Invariant) (ht : s.Timely s.now) {e : Event} {s' : SharedBackend}
    (hs : s.act e = some s') : s'.Timely (s.now + 1) := by
  have hlater : s.Timely (s.now + 1) :=
    ⟨fun w hw => Nat.lt_succ_of_lt (ht.asked w hw), fun l t h => Nat.lt_succ_of_lt (ht.ended l t h)⟩
  -- A waiter asks now, and a load ends now: the time of the event is past in the next.
  cases e with
  | lease throws =>
    obtain rfl := Option.some_inj.1 hs
    rw [SharedBackend.lease]
    split
    · split
      · exact hlater
      · refine ⟨fun w hw => ?_, fun load t hended => ?_⟩
        · rcases List.mem_append.1 hw with hw | hw
          · exact hlater.asked w hw
          · rw [List.mem_singleton.1 hw]
            exact Nat.lt_succ_self _
        · obtain ⟨x, hx, hended⟩ := Option.bind_eq_some_iff.1 hended
          rcases loads_append hx with hx | ⟨-, rfl⟩
          · exact hlater.ended load t (Option.bind_eq_some_iff.2 ⟨x, hx, hended⟩)
          · cases hended
    · refine ⟨fun w hw => ?_, hlater.ended⟩
      rcases List.mem_append.1 hw with hw | hw
      · exact hlater.asked w hw
      · rw [List.mem_singleton.1 hw]
        exact Nat.lt_succ_self _
  | loadEnds load success =>
    obtain ⟨hload, -, hs⟩ := loadEnds_eq h hs
    obtain ⟨hwaiting, hloads, -⟩ := resume_eq hs
    have hended : (s.ended load success).Timely (s.now + 1) := by
      refine ⟨hlater.asked, fun other t hended => ?_⟩
      obtain ⟨x, hx, hended⟩ := Option.bind_eq_some_iff.1 hended
      rcases loads_ended hx with ⟨-, rfl⟩ | ⟨-, hx⟩
      · cases success <;>
        · obtain rfl := Option.some_inj.1 hended
          exact Nat.lt_succ_self _
      · exact hlater.ended other t (Option.bind_eq_some_iff.2 ⟨x, hx, hended⟩)
    exact hended.mono (fun w hw => List.mem_of_mem_eraseIdx (hwaiting ▸ hw)) hloads
  | resume i =>
    rw [SharedBackend.act] at hs
    split at hs
    · obtain ⟨hwaiting, hloads, -⟩ := resume_eq hs
      exact hlater.mono (fun w hw => List.mem_of_mem_eraseIdx (hwaiting ▸ hw)) hloads
    · cases hs
  | dispose i =>
    obtain ⟨hwaiting, hloads, -⟩ := dispose_eq hs
    exact hlater.mono (fun w hw => hwaiting ▸ hw) hloads

/-- Every event keeps the invariant. -/
theorem Invariant.act (h : s.Invariant) (ht : s.Timely s.now) {e : Event} {s' : SharedBackend}
    (hs : s.act e = some s') : s'.Invariant := by
  cases e with
  | lease throws =>
    obtain rfl := Option.some_inj.1 hs
    exact h.lease ht throws
  | loadEnds load success => exact h.loadEnds hs
  | resume i =>
    rw [SharedBackend.act] at hs
    split at hs
    · next hmay =>
      obtain rfl := eq_zero_of_mayResume h.order h.earlier hmay
      exact h.resume hs
    · cases hs
  | dispose i => exact h.dispose hs

/-- A load that failed is forgotten as its first lease resumes. -/
theorem Forgotten.act (h : s.Invariant) (hf : s.Forgotten) {e : Event} {s' : SharedBackend}
    (hs : s.act e = some s') : s'.Forgotten := by
  -- The waiter that resumes waited for the load that failed.
  have hresume : ∀ {s₁ : SharedBackend} {i : Nat}, s₁.resume i = some s' →
      (∀ load t w, s₁.parser = some load → s₁.loads[load]? = some (.failed t) →
        s₁.waiting[i]? = some w → w.load = load) → s'.Forgotten := by
    intro s₁ i hs₁ hfirst load t hload hfailed
    obtain ⟨-, hloads, -, w, hw, ⟨hparser, ⟨t', hloaded⟩, -⟩ | ⟨hparser, -⟩⟩ := resume_eq hs₁
    · rw [hparser] at hload
      rw [hloads] at hfailed
      rw [hfirst load t w hload hfailed hw, hfailed] at hloaded
      cases hloaded
    · rw [hparser] at hload
      rw [hloads] at hfailed
      split at hload
      · cases hload
      · next hother => exact hother (hfirst load t w hload hfailed hw ▸ hload)
  cases e with
  | lease throws =>
    obtain rfl := Option.some_inj.1 hs
    rw [SharedBackend.lease]
    split
    · split
      · exact hf
      · rintro load t hload hfailed
        obtain rfl := Option.some_inj.1 hload
        rw [List.getElem?_concat_length] at hfailed
        cases hfailed
    · exact hf
  | loadEnds load success =>
    obtain ⟨hload, hwaiting, hs⟩ := loadEnds_eq h hs
    refine hresume hs fun other t w hother _ hw => ?_
    rw [hwaiting w (List.mem_of_getElem? hw)]
    exact Option.some_inj.1 ((h.pending load hload).symm.trans hother)
  | resume i =>
    rw [SharedBackend.act] at hs
    split at hs
    · exact hresume hs fun load t w hload hfailed => absurd hfailed (hf load t hload)
    · cases hs
  | dispose i =>
    obtain ⟨-, hloads, -, hparser, -⟩ := dispose_eq hs
    intro load t hload
    rw [hloads]
    rcases hparser with hparser | hparser
    · exact hf load t (hparser ▸ hload)
    · rw [hparser] at hload
      cases hload

/-- An event takes no time of its own. -/
theorem act_now (h : s.Invariant) {e : Event} {s' : SharedBackend} (hs : s.act e = some s') :
    s'.now = s.now := by
  cases e with
  | lease throws =>
    obtain rfl := Option.some_inj.1 hs
    rw [SharedBackend.lease]
    split
    · split <;> rfl
    · rfl
  | loadEnds load success =>
    obtain ⟨-, -, hs⟩ := loadEnds_eq h hs
    exact (resume_eq hs).2.2.1
  | resume i =>
    rw [SharedBackend.act] at hs
    split at hs
    · exact (resume_eq hs).2.2.1
    · cases hs
  | dispose i => exact (dispose_eq hs).2.2.1

/-! ## Runs -/

/-- What holds in every state that a run reaches. -/
structure Reached (s : SharedBackend) : Prop where
  invariant : s.Invariant
  timely : s.Timely s.now
  forgotten : s.Forgotten

theorem reached_init : Reached {} where
  invariant := invariant_init
  timely := ⟨fun _ h => (nomatch h), fun _ _ h => (nomatch h)⟩
  forgotten := fun _ _ h => nomatch h

/-- What is reached goes on to what is reached. -/
theorem Reached.step (h : s.Reached) {e : Event} {s' : SharedBackend} (hs : s.step e = some s') :
    s'.Reached := by
  obtain ⟨acted, hact, rfl⟩ := Option.map_eq_some_iff.1 hs
  have hinv := h.invariant.act h.timely hact
  have hforgotten : acted.Forgotten := Forgotten.act h.invariant h.forgotten hact
  refine ⟨⟨hinv.holders, hinv.order, hinv.earlier, hinv.waits, hinv.current, hinv.pending, hinv.lent,
    hinv.arrived, hinv.used, hinv.kept, hinv.gone, hinv.once, hinv.disposed_loaded⟩, ?_,
    hforgotten⟩
  have htimely := Timely.act h.invariant h.timely hact
  rw [tick, act_now h.invariant hact]
  exact ⟨htimely.asked, htimely.ended⟩

theorem reached_run {events : List Event} (h : Runs.run step {} events = some s) : s.Reached :=
  Runs.run_invariant (fun _ _ _ hr hs => hr.step hs) h reached_init

/-! ## Lent safely -/

/-- The load is in progress, or its parser in use. -/
def Active (s : SharedBackend) (load : Nat) : Prop :=
  s.loads[load]? = some .pending ∨ ∃ l ∈ s.held, l.load = load

/-- The next lease starts a new load, whatever comes before it (leases whose loader throws
    among that). -/
def LoadsAfresh (s : SharedBackend) : Prop :=
  ∀ events s₁, (∀ e ∈ events, e ≠ .lease false) → Runs.run step s events = some s₁ →
    ∀ s₂, s₁.step (.lease false) = some s₂ →
      s₂.loads = s₁.loads ++ [.pending] ∧ s₂.parser = some s₁.loads.length

/-- The parser is lent safely. -/
structure LentSafely (s : SharedBackend) : Prop where
  /-- The holder count is the undisposed leases plus the waiting ones. -/
  counted : s.holders = (s.held.length + s.waiting.length : Nat)
  /-- A parser is disposed only when no undisposed and no waiting lease of it is left; so none is
      given a disposed parser. -/
  unheld : ∀ load ∈ s.disposed, (∀ l ∈ s.held, l.load ≠ load) ∧ ∀ w ∈ s.waiting, w.load ≠ load
  /-- It is disposed at most once. -/
  once : s.disposed.Nodup
  /-- It is disposed by the time the last of its leases is. -/
  prompt : ∀ load t : Nat, s.loads[load]? = some (.loaded t) → (∀ l ∈ s.held, l.load ≠ load) →
    (∀ w ∈ s.waiting, w.load ≠ load) → load ∈ s.disposed
  /-- Disposing an undisposed lease releases that lease alone. -/
  releases : ∀ i l, s.leases[i]? = some l → l.held = true → ∀ s', s.step (.dispose i) = some s' →
    s'.holders = s.holders - 1 ∧ s'.leases = s.leases.set i { l with held := false }
  /-- A disposed lease stays disposed, and disposing it again changes nothing. -/
  again : ∀ i l, s.leases[i]? = some l → l.held = false →
    s.step (.dispose i) = some s.tick ∧ ∀ e s', s.step e = some s' → s'.leases[i]? = some l
  /-- At most one load is in progress or in use. -/
  single : ∀ load load', s.Active load → s.Active load' → load = load'
  /-- After a failed load the next lease loads afresh. -/
  failed : ∀ load s', s.step (.loadEnds load false) = some s' → s'.LoadsAfresh
  /-- And after the last release it does. -/
  idle : s.holders = 0 → s.LoadsAfresh

/-- Without a parser, only a lease brings one. -/
theorem act_parser_none (h : s.Reached) (hparser : s.parser = none) {e : Event}
    (he : e ≠ .lease false) {s' : SharedBackend} (hs : s.act e = some s') : s'.parser = none := by
  cases e with
  | lease throws =>
    cases throws with
    | false => exact absurd rfl he
    | true =>
      obtain rfl := Option.some_inj.1 hs
      rw [SharedBackend.lease, hparser]
      exact hparser
  | loadEnds load success =>
    obtain ⟨hload, -, -⟩ := loadEnds_eq h.invariant hs
    have := h.invariant.pending load hload
    rw [hparser] at this
    cases this
  | resume i =>
    rw [act] at hs
    split at hs
    · obtain ⟨-, -, -, w, -, ⟨hsame, -⟩ | ⟨hforget, -⟩⟩ := resume_eq hs
      · rw [hsame, hparser]
      · rw [hforget, hparser, if_neg (by nofun)]
    · cases hs
  | dispose i =>
    obtain ⟨-, -, -, hsame | hnone, -⟩ := dispose_eq hs
    · rw [hsame, hparser]
    · exact hnone

/-- A disposed lease stays as it is. -/
theorem act_leases (h : s.Invariant) {e : Event} {s' : SharedBackend} (hs : s.act e = some s')
    {i : Nat} {l : Lent} (hl : s.leases[i]? = some l) (hheld : l.held = false) :
    s'.leases[i]? = some l := by
  have hresume : ∀ {s₁ : SharedBackend} {j : Nat}, s₁.leases = s.leases →
      s₁.resume j = some s' → s'.leases[i]? = some l := by
    intro s₁ j hsame hs₁
    obtain ⟨-, -, -, w, -, ⟨-, -, hgiven⟩ | ⟨-, hleases⟩⟩ := resume_eq hs₁
    · rw [hgiven, hsame, List.getElem?_append_left (List.getElem?_eq_some_iff.1 hl).1, hl]
    · rw [hleases, hsame, hl]
  cases e with
  | lease throws =>
    obtain rfl := Option.some_inj.1 hs
    rw [SharedBackend.lease]
    split
    · split <;> exact hl
    · exact hl
  | loadEnds load success =>
    obtain ⟨-, -, hs⟩ := loadEnds_eq h hs
    exact hresume (show (s.ended load success).leases = s.leases from rfl) hs
  | resume j =>
    rw [act] at hs
    split at hs
    · exact hresume rfl hs
    · cases hs
  | dispose j =>
    obtain ⟨-, -, -, -, lent, hj, hset⟩ := dispose_eq hs
    rw [hset, List.getElem?_set]
    split
    · next hsame =>
      obtain rfl := hsame
      rw [hl, Option.some_inj] at hj
      subst hj
      rw [if_pos (List.getElem?_eq_some_iff.1 hl).1, ← hheld]
    · exact hl

/-- Without a parser, and until there is one, a lease loads afresh. -/
theorem loadsAfresh (h : s.Reached) (hparser : s.parser = none) : s.LoadsAfresh := by
  intro events s₁ hevents hrun s₂ hs₂
  obtain ⟨-, hparser⟩ := Runs.run_invariant_of (P := fun s => s.Reached ∧ s.parser = none)
    (fun t e t' he ⟨ht, hnone⟩ hstep => by
      refine ⟨ht.step hstep, ?_⟩
      obtain ⟨acted, hact, rfl⟩ := Option.map_eq_some_iff.1 hstep
      have hacted : acted.parser = none := act_parser_none ht hnone he hact
      exact hacted) hevents hrun ⟨h, hparser⟩
  obtain rfl := Option.some_inj.1 hs₂
  rw [tick, lease, hparser]
  exact ⟨rfl, rfl⟩

/-- The parser is lent safely, in every run. -/
theorem run_lentSafely {events : List Event} (h : Runs.run step {} events = some s) :
    s.LentSafely := by
  have hr := reached_run h
  -- What concerns one state is read off the invariant; what concerns the next event, off what the
  -- event does in such a state.
  have hi := hr.invariant
  refine
    { counted := hi.holders
      unheld := fun load hload => ⟨fun l hl hsame => ?_, fun w hw hsame => ?_⟩
      once := hi.once
      prompt := fun load t hloaded hheld hwaiting => ?_
      releases := fun i l hl hheld s' hs' => ?_
      again := fun i l hl hheld => ⟨?_, fun e s' hs' => ?_⟩
      single := fun load load' hload hload' => ?_
      failed := fun load s' hs' => ?_
      idle := fun hidle => ?_ }
  · exact hi.kept load (hsame ▸ (hi.lent l hl).1) hload
  · rcases hi.waits w hw with hparser | ⟨t, hfailed⟩
    · exact hi.kept load (hsame ▸ hparser) hload
    · obtain ⟨t', hloaded⟩ := hi.disposed_loaded load hload
      rw [← hsame, hfailed] at hloaded
      cases hloaded
  · by_contra hnot
    have hparser : s.parser = some load := by
      by_contra hother
      exact hnot (hi.gone load t hloaded hother)
    rcases hi.used load hparser with ⟨w, hw, hsame⟩ | ⟨l, hl, hsame⟩
    · exact hwaiting w hw hsame
    · exact hheld l hl hsame
  · obtain ⟨acted, hact, rfl⟩ := Option.map_eq_some_iff.1 hs'
    rw [act, dispose, hl] at hact
    dsimp only at hact
    rw [if_pos hheld, Option.some_inj] at hact
    rw [← hact, release]
    split <;> exact ⟨rfl, rfl⟩
  · rw [step, act, dispose, hl]
    dsimp only
    rw [if_neg (by rw [hheld]; nofun), Option.map_some]
  · obtain ⟨acted, hact, rfl⟩ := Option.map_eq_some_iff.1 hs'
    have hacted : acted.leases[i]? = some l := act_leases hi hact hl hheld
    exact hacted
  · have hparser : ∀ load, s.Active load → s.parser = some load := by
      rintro load (hpending | ⟨l, hl, rfl⟩)
      · exact hi.pending load hpending
      · exact (hi.lent l hl).1
    exact Option.some_inj.1 ((hparser load hload).symm.trans (hparser load' hload'))
  · refine loadsAfresh (hr.step hs') ?_
    obtain ⟨acted, hact, rfl⟩ := Option.map_eq_some_iff.1 hs'
    obtain ⟨hpending, hwaiting, hresume⟩ := loadEnds_eq hi hact
    obtain ⟨-, -, -, w, hw, hcases⟩ := resume_eq hresume
    have hload : w.load = load := hwaiting w (List.mem_of_getElem? hw)
    have hparser : s.parser = some w.load := hload ▸ hi.pending load hpending
    rcases hcases with ⟨-, ⟨t, hloaded⟩, -⟩ | ⟨hforget, -⟩
    · -- The load did not succeed.
      rw [hload] at hloaded
      rcases loads_ended hloaded with ⟨-, hx⟩ | ⟨hne, -⟩
      · cases hx
      · exact absurd rfl hne
    · exact hforget.trans (if_pos hparser)
  · refine loadsAfresh hr ?_
    by_contra hsome
    obtain ⟨load, hload⟩ := Option.ne_none_iff_exists'.1 hsome
    have hcount := hi.holders
    rcases hi.used load hload with ⟨w, hw, -⟩ | ⟨l, hl, -⟩
    · have := List.length_pos_of_mem hw
      omega
    · have := List.length_pos_of_mem hl
      omega

/-- The first load fails; the lease that it fails first retries before the other one resumes,
    and is disposed twice once the second load has given it its parser. -/
theorem run_lentSafely_retried :
    ({ loads := [.failed 2, .loaded 5], leases := [⟨1, false⟩], disposed := [1], now := 8 } :
      SharedBackend).LentSafely :=
  run_lentSafely (show Runs.run step {} [.lease false, .lease false, .loadEnds 0 false,
    .lease false, .resume 0, .loadEnds 1 true, .dispose 0, .dispose 0] = some _ by decide)

end SharedBackend

end Flark
