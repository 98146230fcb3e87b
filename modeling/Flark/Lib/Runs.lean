import Mathlib.Init

/-!
# Runs

Runs of a machine that takes one event at a time: `step` gives the state after an event, or
`none` where the event cannot happen.

* `run_invariant`: what every step keeps holds at the end of a run.
-/

namespace Flark

namespace Runs

variable {σ ε : Type*} {step : σ → ε → Option σ}

/-- The state after a sequence of events. -/
def run (step : σ → ε → Option σ) : (s : σ) → (events : List ε) → Option σ
  | s, [] => some s
  | s, e :: events => (step s e).bind fun s' => run step s' events

theorem run_cons_eq_some {s s' : σ} {e : ε} {events : List ε} :
    run step s (e :: events) = some s' ↔
      ∃ mid, step s e = some mid ∧ run step mid events = some s' :=
  Option.bind_eq_some_iff

/-- A run ends in a state that every step leading to it keeps to. -/
theorem run_invariant {P : σ → Prop} (hstep : ∀ s e s', P s → step s e = some s' → P s')
    {s s' : σ} {events : List ε} (h : run step s events = some s') (hs : P s) : P s' := by
  induction events generalizing s with
  | nil =>
    obtain rfl := Option.some_inj.1 h
    exact hs
  | cons e events ih =>
    obtain ⟨mid, hmid, hrest⟩ := run_cons_eq_some.1 h
    exact ih hrest (hstep s e mid hs hmid)

/-- The same where only some events happen. -/
theorem run_invariant_of {P : σ → Prop} {Q : ε → Prop}
    (hstep : ∀ s e s', Q e → P s → step s e = some s' → P s') {s s' : σ} {events : List ε}
    (hevents : ∀ e ∈ events, Q e) (h : run step s events = some s') (hs : P s) : P s' := by
  induction events generalizing s with
  | nil =>
    obtain rfl := Option.some_inj.1 h
    exact hs
  | cons e events ih =>
    obtain ⟨mid, hmid, hrest⟩ := run_cons_eq_some.1 h
    exact ih (fun e' he' => hevents e' (List.mem_cons_of_mem _ he')) hrest
      (hstep s e mid (hevents e List.mem_cons_self) hs hmid)

end Runs

end Flark
