import Flark.Lib.Runs
import Mathlib.Data.List.Nodup
import Mathlib.Order.Nat

/-!
# The queue of image decoders

`PreviewDecodeQueue` and `PreviewCancellation` of `image_decode.dart` and `image_decode_types.dart`:
the previews of every mounted editor share two decoders. What is to be decoded waits, unless eight
wait already, and a token that is cancelled takes out of the queue what it was given for.

The model is a machine over the calls of hosts and the ends of decoders, in any order. A job is
named by its number, and stands for the future that `decode` returns. Completing that future twice
would throw.

* `DecodeQueue.Invariant`: what every event keeps;
* `DecodeQueue.run_served`: the bounds, the order and the listeners of every run;
* `DecodeQueue.cancelled_stays`: what is cancelled is not shown, whatever follows;
* `DecodeQueue.settled_all`: the queue drains.
-/

namespace Flark

/-- What a job comes to. -/
inductive PreviewOutcome
  | pixels
  | cancelled
  | failed
  deriving DecidableEq, Repr

/-- `_Job`. -/
structure DecodeJob where
  token : Nat
  /-- The length of `bytes`. -/
  bytes : Nat
  /-- What `done` was completed with. -/
  done : Option PreviewOutcome := none
  /-- It listens to its token, until `remove`. -/
  listening : Bool := true
  deriving DecidableEq, Repr

/-- The job that is completed, and hears of its token no more. -/
def DecodeJob.ends (o : PreviewOutcome) (job : DecodeJob) : DecodeJob :=
  { job with done := some o, listening := false }

structure DecodeQueue where
  /-- The jobs taken so far. -/
  jobs : List DecodeJob := []
  /-- `_queue`. -/
  queue : List Nat := []
  /-- The jobs whose decoder has not settled. -/
  running : List Nat := []
  /-- `_active`. -/
  active : Nat := 0
  /-- The tokens that are cancelled. -/
  cancelled : List Nat := []
  /-- A future was completed twice. -/
  misused : Bool := false
  deriving DecidableEq, Repr

namespace DecodeQueue

variable (q : DecodeQueue)

def maxActive : Nat := 2

def maxQueued : Nat := 8

def maxBytes : Nat := 4 * 1024 * 1024

/-! ## The calls -/

/-- The loop of `_drain`. -/
def drainFrom : (queue : List Nat) → (running : List Nat) → (active : Nat) → List Nat × List Nat × Nat
  | [], running, active => ([], running, active)
  | j :: queue, running, active =>
    if active < maxActive then drainFrom queue (running ++ [j]) (active + 1)
    else (j :: queue, running, active)

/-- `_drain`. -/
def drain : DecodeQueue :=
  let (queue, running, active) := drainFrom q.queue q.running q.active
  { q with queue := queue, running := running, active := active }

/-- `done.complete` and `done.completeError`. -/
def complete (j : Nat) (o : PreviewOutcome) : DecodeQueue :=
  if (q.jobs[j]?).any fun job => job.done.isSome then { q with misused := true }
  else { q with jobs := q.jobs.modify j fun job => { job with done := some o } }

/-- `remove`. -/
def unlisten (j : Nat) : DecodeQueue :=
  { q with jobs := q.jobs.modify j fun job => { job with listening := false } }

/-- `decode`: the job that was taken, or what the future is completed with at once. -/
def decode (bytes token : Nat) : Except PreviewOutcome Nat × DecodeQueue :=
  if token ∈ q.cancelled then (.error .cancelled, q)
  else if maxBytes < bytes ∨ maxQueued ≤ q.queue.length then (.error .failed, q)
  else
    (.ok q.jobs.length, drain { q with
      jobs := q.jobs ++ [⟨token, bytes, none, true⟩]
      queue := q.queue ++ [q.jobs.length] })

/-- The rest of `_run`, once the decoder has settled. -/
def settle (j : Nat) (o : PreviewOutcome) : DecodeQueue :=
  let cancelled := (q.jobs[j]?).any fun job => decide (job.token ∈ q.cancelled)
  let q := (q.complete j (if o = .pixels ∧ cancelled then .cancelled else o)).unlisten j
  drain { q with running := q.running.erase j, active := q.active - 1 }

/-- The callback of a job. -/
def hears (j : Nat) : DecodeQueue :=
  if j ∈ q.queue then
    let q := { q with queue := q.queue.erase j }
    if (q.jobs[j]?).any fun job => job.done.isSome then q
    else (q.unlisten j).complete j .cancelled
  else q

/-- The jobs that listen to a token, in the order they came. -/
def listeners (token : Nat) : List Nat :=
  (List.range q.jobs.length).filter fun j =>
    (q.jobs[j]?).any fun job => job.listening && job.token == token

/-- `_listeners.clear`. -/
def clears (token : Nat) : DecodeQueue :=
  { q with jobs := q.jobs.map fun job =>
      if job.token = token then { job with listening := false } else job }

/-- `cancel`. -/
def cancel (token : Nat) : DecodeQueue :=
  if token ∈ q.cancelled then q
  else
    let heard : DecodeQueue := { q with cancelled := q.cancelled ++ [token] }
    ((q.listeners token).foldl hears heard).clears token

inductive Event
  | decode (bytes token : Nat)
  | cancel (token : Nat)
  | settle (j : Nat) (o : PreviewOutcome)
  deriving DecidableEq, Repr

/-- The queue after an event. A decoder that settles is one that runs. -/
def step : Event → Option DecodeQueue
  | .decode bytes token => some (q.decode bytes token).2
  | .cancel token => some (q.cancel token)
  | .settle j o => if j ∈ q.running then some (q.settle j o) else none

/-! ## What every event keeps -/

/-- What holds of a queue, also where it was not drained yet. -/
structure Base : Prop where
  active : q.active = q.running.length
  room : q.running.length ≤ maxActive
  short : q.queue.length ≤ maxQueued
  /-- Jobs are decoded in the order they came. -/
  ordered : (q.running ++ q.queue).Pairwise (· < ·)
  /-- A job is decoded, or waits, until it is done. -/
  unfinished : ∀ j : Nat, j ∈ q.running ++ q.queue ↔
    ∃ job : DecodeJob, q.jobs[j]? = some job ∧ job.done = none
  listening : ∀ (j : Nat) (job : DecodeJob), q.jobs[j]? = some job →
    (job.listening = true ↔ job.done = none ∧ job.token ∉ q.cancelled)
  waiting : ∀ j ∈ q.queue, ∀ job : DecodeJob, q.jobs[j]? = some job → job.token ∉ q.cancelled
  /-- No job that came later is past one that waits, but those that were cancelled. -/
  overtaken : ∀ i ∈ q.queue, ∀ (j : Nat) (job : DecodeJob), i < j → q.jobs[j]? = some job →
    j ∈ q.queue ∨ job.done = some .cancelled
  small : ∀ job ∈ q.jobs, job.bytes ≤ maxBytes
  unused : q.misused = false

/-- What holds of a queue after every event: no decoder is idle while a job waits. -/
structure Invariant : Prop extends q.Base where
  busy : q.queue ≠ [] → q.running.length = maxActive

variable {q}

theorem Base.nodup (h : q.Base) : (q.running ++ q.queue).Nodup := h.ordered.imp Nat.ne_of_lt

/-- A job that runs or waits has not ended. -/
theorem Base.done_eq (h : q.Base) {j : Nat} (hj : j ∈ q.running ++ q.queue) :
    ∃ job, q.jobs[j]? = some job ∧ job.done = none := (h.unfinished j).1 hj

/-- The queue starts with the invariant. -/
theorem invariant_empty : ({} : DecodeQueue).Invariant where
  active := rfl
  room := Nat.zero_le _
  short := Nat.zero_le _
  ordered := .nil
  unfinished _ := ⟨nofun, nofun⟩
  listening _ _ := nofun
  waiting _ := nofun
  overtaken _ := nofun
  small _ := nofun
  unused := rfl
  busy h := absurd rfl h

/-! ## Draining -/

/-- Draining begins with the job that has waited longest, as long as a decoder is free. -/
theorem drainFrom_spec {queue running : List Nat} {active : Nat} (hactive : active ≤ maxActive) :
    ∃ first rest, queue = first ++ rest ∧
      drainFrom queue running active = (rest, running ++ first, active + first.length) ∧
      active + first.length ≤ maxActive ∧
      (rest ≠ [] → active + first.length = maxActive) := by
  induction queue generalizing running active with
  | nil =>
    exact ⟨[], [], rfl, by rw [drainFrom, List.append_nil]; rfl, hactive, fun h => absurd rfl h⟩
  | cons j queue ih =>
    rw [drainFrom]
    split_ifs with hfree
    · obtain ⟨first, rest, hqueue, heq, hle, hfull⟩ := @ih (running ++ [j]) (active + 1) hfree
      have hcount : active + 1 + first.length = active + (j :: first).length := by
        rw [List.length_cons, Nat.add_assoc, Nat.add_comm 1]
      rw [hcount] at heq hle hfull
      rw [List.append_assoc] at heq
      exact ⟨j :: first, rest, congrArg (j :: ·) hqueue, heq, hle, hfull⟩
    · exact ⟨[], j :: queue, rfl, by rw [List.append_nil]; rfl, hactive,
        fun _ => Nat.le_antisymm hactive (Nat.le_of_not_lt hfree)⟩

/-- Starting jobs takes none away. -/
theorem drain_held (hactive : q.active ≤ maxActive) :
    q.drain.running ++ q.drain.queue = q.running ++ q.queue := by
  obtain ⟨first, rest, hqueue, heq, -⟩ := @drainFrom_spec q.queue q.running q.active hactive
  rw [drain, heq]
  dsimp only
  rw [List.append_assoc, ← hqueue]

/-- Starting jobs leaves as many running as there may be. -/
theorem Base.drain (h : q.Base) : q.drain.Invariant := by
  obtain ⟨first, rest, hqueue, heq, hle, hfull⟩ :=
    @drainFrom_spec q.queue q.running q.active (h.active ▸ h.room)
  have hheld : q.running ++ first ++ rest = q.running ++ q.queue := by
    rw [hqueue, List.append_assoc]
  have hcount : (q.running ++ first).length = q.active + first.length := by
    rw [List.length_append, h.active]
  have hrest : ∀ i ∈ rest, i ∈ q.queue := fun i hi => hqueue ▸ List.mem_append_right _ hi
  rw [DecodeQueue.drain, heq]
  refine ⟨⟨hcount.symm, hcount ▸ hle, ?_, hheld ▸ h.ordered, hheld ▸ h.unfinished, h.listening,
    fun j hj => h.waiting j (hrest j hj), fun i hi j job hlt hjob => ?_, h.small, h.unused⟩,
    fun hne => hcount.trans (hfull hne)⟩
  · have hlength := h.short
    rw [hqueue, List.length_append] at hlength
    exact Nat.le_of_add_left_le hlength
  · refine (h.overtaken i (hrest i hi) j job hlt hjob).imp_left fun hj => ?_
    rw [hqueue, List.mem_append] at hj
    -- What begins to be decoded came before what still waits.
    refine hj.resolve_left fun hfirst => ?_
    have hordered := h.ordered
    rw [← hheld, List.pairwise_append] at hordered
    exact Nat.lt_asymm hlt (hordered.2.2 j (List.mem_append_right _ hfirst) i hi)

/-! ## Taking a job -/

/-- A list with another entry has those it had, and that one. -/
theorem getElem?_push {α : Type} {as : List α} {new a : α} {i : Nat} :
    (as ++ [new])[i]? = some a ↔ as[i]? = some a ∨ i = as.length ∧ new = a := by
  grind

/-- A job that was taken is one of its token. -/
theorem decode_ok {bytes token j : Nat} {q' : DecodeQueue}
    (h : q.decode bytes token = (.ok j, q')) :
    ∃ job, q'.jobs[j]? = some job ∧ job.token = token := by
  rw [DecodeQueue.decode] at h
  split_ifs at h
  · cases h
  · cases h
  · obtain ⟨hj, rfl⟩ := Prod.mk.inj h
    rw [← Except.ok.inj hj]
    exact ⟨_, List.getElem?_concat_length, rfl⟩

/-- A new job waits or is started. -/
theorem Invariant.decode (h : q.Invariant) (bytes token : Nat) :
    (q.decode bytes token).2.Invariant := by
  rw [DecodeQueue.decode]
  split_ifs with hcancelled hrefused
  · exact h
  · exact h
  -- The new job waits behind all others. Of these nothing changes.
  · rw [not_or, Nat.not_lt, Nat.not_le] at hrefused
    obtain ⟨hsmall, hroom⟩ := hrefused
    have hlt : ∀ i ∈ q.running ++ q.queue, i < q.jobs.length := by
      intro i hi
      obtain ⟨job, hjob, -⟩ := h.done_eq hi
      exact (List.getElem?_eq_some_iff.1 hjob).1
    refine Base.drain ⟨h.active, h.room, ?_, ?_, fun j => ?_, fun j job hjob => ?_,
      fun j hj job hjob => ?_, fun i hi j job hij hjob => ?_, fun job hjob => ?_, h.unused⟩
    · rw [List.length_append]
      exact hroom
    · rw [← List.append_assoc]
      exact List.pairwise_append.2 ⟨h.ordered, List.pairwise_singleton _ _,
        fun i hi j hj => List.mem_singleton.1 hj ▸ hlt i hi⟩
    · rw [← List.append_assoc, List.mem_append, h.unfinished, List.mem_singleton]
      constructor
      · rintro (⟨job, hjob, hdone⟩ | rfl)
        · exact ⟨job, getElem?_push.2 (Or.inl hjob), hdone⟩
        · exact ⟨_, getElem?_push.2 (Or.inr ⟨rfl, rfl⟩), rfl⟩
      · rintro ⟨job, hjob, hdone⟩
        exact (getElem?_push.1 hjob).imp (fun hold => ⟨job, hold, hdone⟩) And.left
    · rcases getElem?_push.1 hjob with hold | ⟨-, rfl⟩
      · exact h.listening j job hold
      · exact ⟨fun _ => ⟨rfl, hcancelled⟩, fun _ => rfl⟩
    · rcases getElem?_push.1 hjob with hold | ⟨-, rfl⟩
      · refine h.waiting j ((List.mem_append.1 hj).resolve_right fun hnew => ?_) job hold
        rw [List.mem_singleton.1 hnew] at hold
        exact absurd (List.getElem?_eq_some_iff.1 hold).1 (lt_irrefl _)
      · exact hcancelled
    · rcases getElem?_push.1 hjob with hold | ⟨rfl, -⟩
      · have hj := (List.getElem?_eq_some_iff.1 hold).1
        refine (h.overtaken i ((List.mem_append.1 hi).resolve_right fun hnew => ?_) j job hij
          hold).imp_left fun hj => List.mem_append_left _ hj
        rw [List.mem_singleton.1 hnew] at hij
        exact lt_asymm hij hj
      · exact Or.inl (List.mem_append_right _ (List.mem_singleton_self _))
    · rcases List.mem_append.1 hjob with hold | hnew
      · exact h.small job hold
      · rw [List.mem_singleton.1 hnew]
        exact hsmall

/-! ## The end of a job -/

/-- A job that is not done is completed, and `remove` called before or after. -/
theorem complete_unlisten {j : Nat} {job : DecodeJob} (hjob : q.jobs[j]? = some job)
    (hdone : job.done = none) (o : PreviewOutcome) :
    (q.complete j o).unlisten j = { q with jobs := q.jobs.modify j (DecodeJob.ends o) } ∧
      (q.unlisten j).complete j o = { q with jobs := q.jobs.modify j (DecodeJob.ends o) } := by
  have hopen : ¬((q.jobs[j]?).any fun job => job.done.isSome) = true := by
    rw [hjob, Option.any_some, hdone]
    exact Bool.false_ne_true
  have hopen' : ¬(((q.unlisten j).jobs[j]?).any fun job => job.done.isSome) = true := by
    rw [unlisten, List.getElem?_modify_eq, hjob]
    exact fun h => hopen (by rw [hjob]; exact h)
  rw [complete, if_neg hopen, complete, if_neg hopen', unlisten, unlisten, List.modify_modify_eq,
    List.modify_modify_eq]
  exact ⟨rfl, rfl⟩

/-- An entry is the one there was, or the one that is changed. -/
theorem getElem?_modify_cases {α : Type} {as : List α} {f : α → α} {i k : Nat} {b : α}
    (h : (as.modify i f)[k]? = some b) :
    (k ≠ i ∧ as[k]? = some b) ∨ (k = i ∧ ∃ a, as[i]? = some a ∧ b = f a) := by
  by_cases hik : i = k
  · subst hik
    rw [List.getElem?_modify_eq] at h
    obtain ⟨a, ha, rfl⟩ := Option.map_eq_some_iff.1 h
    exact Or.inr ⟨rfl, a, ha, rfl⟩
  · rw [List.getElem?_modify_ne _ _ hik] at h
    exact Or.inl ⟨Ne.symm hik, h⟩

/-- The outcome that the future of a job is completed with, where its decoder settles. -/
def outcome (q : DecodeQueue) (j : Nat) (o : PreviewOutcome) : PreviewOutcome :=
  if o = .pixels ∧ (q.jobs[j]?).any fun job => decide (job.token ∈ q.cancelled) then .cancelled
  else o

/-- A job that settles ends, and makes room for another. -/
theorem Base.settle_eq (h : q.Base) {j : Nat} (hj : j ∈ q.running) (o : PreviewOutcome) :
    q.settle j o = DecodeQueue.drain { q with
      jobs := q.jobs.modify j (DecodeJob.ends (q.outcome j o))
      running := q.running.erase j
      active := q.active - 1 } := by
  obtain ⟨job, hjob, hdone⟩ := h.done_eq (List.mem_append_left _ hj)
  rw [DecodeQueue.settle, (complete_unlisten hjob hdone _).1]
  rfl

/-- A job that settles keeps the invariant. -/
theorem Invariant.settle (h : q.Invariant) {j : Nat} (hj : j ∈ q.running) (o : PreviewOutcome) :
    (q.settle j o).Invariant := by
  -- A job that runs has been started before those that wait.
  have hapart : ∀ i ∈ q.queue, j < i := fun i hi =>
    (List.pairwise_append.1 h.ordered).2.2 j hj i hi
  have hnodup : q.running.Nodup := (List.nodup_append.1 h.nodup).1
  rw [h.settle_eq hj]
  refine Base.drain ⟨?_, (List.length_erase_le).trans h.room, h.short, ?_, fun i => ?_,
    fun i job hjob => ?_, fun i hi job hjob => ?_, fun i hi k job hik hjob => ?_,
    fun job hjob => ?_, h.unused⟩
  · rw [List.length_erase_of_mem hj, h.active]
  · exact h.ordered.sublist (List.erase_sublist.append_right _)
  · have hunfinished := h.unfinished i
    rw [List.mem_append] at hunfinished
    rw [List.mem_append, hnodup.mem_erase_iff]
    constructor
    · intro hi
      have hne : i ≠ j := by
        rcases hi with ⟨hne, -⟩ | hi
        · exact hne
        · exact (hapart i hi).ne'
      obtain ⟨job, hjob, hdone⟩ := hunfinished.1 (hi.imp_left And.right)
      exact ⟨job, by rw [List.getElem?_modify_ne _ _ hne.symm]; exact hjob, hdone⟩
    · rintro ⟨job, hjob, hdone⟩
      rcases getElem?_modify_cases hjob with ⟨hne, hold⟩ | ⟨-, job', -, rfl⟩
      · exact (hunfinished.2 ⟨job, hold, hdone⟩).imp_left fun hi => ⟨hne, hi⟩
      · cases hdone
  · rcases getElem?_modify_cases hjob with ⟨-, hold⟩ | ⟨-, job', -, rfl⟩
    · exact h.listening i job hold
    · exact ⟨fun h => absurd h Bool.false_ne_true, fun h => by cases h.1⟩
  · rcases getElem?_modify_cases hjob with ⟨-, hold⟩ | ⟨rfl, -⟩
    · exact h.waiting i hi job hold
    · exact absurd (hapart i hi) (lt_irrefl i)
  · rcases getElem?_modify_cases hjob with ⟨-, hold⟩ | ⟨rfl, -⟩
    · exact h.overtaken i hi k job hik hold
    · exact absurd hik (hapart i hi).asymm
  · obtain ⟨i, hi⟩ := List.getElem?_of_mem hjob
    rcases getElem?_modify_cases hi with ⟨-, hold⟩ | ⟨-, job', hold, rfl⟩
    · exact h.small job (List.mem_of_getElem? hold)
    · exact h.small job' (List.mem_of_getElem? hold)

/-! ## Cancelling -/

/-- What a job that is cancelled becomes. -/
theorem hears_eq (hopen : ∀ j ∈ q.queue, ∃ job, q.jobs[j]? = some job ∧ job.done = none) (j : Nat) :
    q.hears j = if j ∈ q.queue then
      { q with queue := q.queue.erase j, jobs := q.jobs.modify j (DecodeJob.ends .cancelled) }
    else q := by
  rw [hears]
  split_ifs with hj
  · obtain ⟨job, hjob, hdone⟩ := hopen j hj
    rw [if_neg (by rw [hjob, Option.any_some, hdone]; exact Bool.false_ne_true)]
    exact (complete_unlisten (q := { q with queue := q.queue.erase j }) hjob hdone _).2
  · rfl

/-- The jobs of a token hear of it one after the other: those that wait are cancelled. -/
theorem foldl_hears (hnodup : q.queue.Nodup)
    (hopen : ∀ j ∈ q.queue, ∃ job, q.jobs[j]? = some job ∧ job.done = none) (js : List Nat) :
    ∃ jobs queue, js.foldl hears q = { q with jobs := jobs, queue := queue } ∧
      (∀ i, i ∈ queue ↔ i ∈ q.queue ∧ i ∉ js) ∧ queue.Sublist q.queue ∧
      ∀ i, jobs[i]? = if i ∈ js ∧ i ∈ q.queue then (q.jobs[i]?).map (DecodeJob.ends .cancelled)
        else q.jobs[i]? := by
  -- By induction on the jobs that hear of it: one that waits leaves the queue, and one that runs
  -- stays as it is.
  induction js generalizing q with
  | nil =>
    refine ⟨q.jobs, q.queue, rfl, fun i => ?_, List.Sublist.refl _, fun i => ?_⟩
    · exact ⟨fun hi => ⟨hi, List.not_mem_nil⟩, And.left⟩
    · rw [if_neg fun h => List.not_mem_nil h.1]
  | cons j js ih =>
    rw [List.foldl_cons, hears_eq hopen]
    split_ifs with hj
    · obtain ⟨jobs, queue, heq, hqueue, hsub, hjobs⟩ := @ih { q with
          queue := q.queue.erase j, jobs := q.jobs.modify j (DecodeJob.ends .cancelled) }
        (hnodup.erase j) fun i hi => by
          obtain ⟨hne, hi⟩ := hnodup.mem_erase_iff.1 hi
          dsimp only
          rw [List.getElem?_modify_ne _ _ hne.symm]
          exact hopen i hi
      refine ⟨jobs, queue, heq, fun i => ?_, hsub.trans List.erase_sublist, fun i => ?_⟩
      · rw [hqueue, hnodup.mem_erase_iff, List.mem_cons, not_or]
        exact ⟨fun h => ⟨h.1.2, h.1.1, h.2⟩, fun h => ⟨⟨h.2.1, h.1⟩, h.2.2⟩⟩
      · rw [hjobs]
        by_cases hij : i = j
        · subst hij
          rw [if_neg fun h => (hnodup.mem_erase_iff.1 h.2).1 rfl,
            if_pos ⟨List.mem_cons_self, hj⟩, List.getElem?_modify_eq]
          rfl
        · have hmem : i ∈ js ∧ i ∈ q.queue.erase j ↔ i ∈ j :: js ∧ i ∈ q.queue := by
            rw [hnodup.mem_erase_iff, List.mem_cons]
            exact ⟨fun h => ⟨Or.inr h.1, h.2.2⟩, fun h => ⟨h.1.resolve_left hij, hij, h.2⟩⟩
          dsimp only
          rw [List.getElem?_modify_ne _ _ (Ne.symm hij)]
          simp only [hmem]
    · obtain ⟨jobs, queue, heq, hqueue, hsub, hjobs⟩ := ih hnodup hopen
      have hne : ∀ i ∈ q.queue, i ≠ j := fun i hi hij => hj (hij ▸ hi)
      refine ⟨jobs, queue, heq, fun i => ?_, hsub, fun i => ?_⟩
      · rw [hqueue, List.mem_cons, not_or]
        exact ⟨fun h => ⟨h.1, hne i h.1, h.2⟩, fun h => ⟨h.1, h.2.2⟩⟩
      · rw [hjobs]
        have hmem : i ∈ js ∧ i ∈ q.queue ↔ i ∈ j :: js ∧ i ∈ q.queue := by
          rw [List.mem_cons]
          exact ⟨fun h => ⟨Or.inr h.1, h.2⟩, fun h => ⟨h.1.resolve_left (hne i h.2), h.2⟩⟩
        simp only [hmem]

/-- The listeners of a token are its jobs that listen. -/
theorem mem_listeners {token j : Nat} : j ∈ q.listeners token ↔
    ∃ job, q.jobs[j]? = some job ∧ job.listening = true ∧ job.token = token := by
  rw [listeners, List.mem_filter, List.mem_range, Option.any_eq_true]
  constructor
  · rintro ⟨-, job, hjob, hlistens⟩
    rw [Bool.and_eq_true, beq_iff_eq] at hlistens
    exact ⟨job, hjob, hlistens⟩
  · rintro ⟨job, hjob, hlistens⟩
    refine ⟨(List.getElem?_eq_some_iff.1 hjob).1, job, hjob, ?_⟩
    rw [Bool.and_eq_true, beq_iff_eq]
    exact hlistens

/-- A token that is cancelled takes its jobs out of the queue, and all its listeners with them. -/
theorem Base.cancel_spec (h : q.Base) {token : Nat} (htoken : token ∉ q.cancelled) :
    ∃ jobs queue, q.cancel token =
        { q with jobs := jobs, queue := queue, cancelled := q.cancelled ++ [token] } ∧
      queue.Sublist q.queue ∧
      (∀ i job, q.jobs[i]? = some job → (i ∈ queue ↔ i ∈ q.queue ∧ job.token ≠ token)) ∧
      ∀ i, jobs[i]? = (q.jobs[i]?).map fun job =>
        if job.token = token then
          if i ∈ q.queue then job.ends .cancelled else { job with listening := false }
        else job := by
  obtain ⟨jobs, queue, heq, hqueue, hsub, hjobs⟩ :=
    @foldl_hears { q with cancelled := q.cancelled ++ [token] }
      (List.nodup_append.1 h.nodup).2.1 (fun i hi => h.done_eq (List.mem_append_right _ hi))
      (q.listeners token)
  -- A job that waits is listened to by its token.
  have hlisteners : ∀ i ∈ q.queue, ∀ job, q.jobs[i]? = some job →
      (i ∈ q.listeners token ↔ job.token = token) := by
    intro i hi job hjob
    obtain ⟨job', hjob', hdone⟩ := h.done_eq (List.mem_append_right _ hi)
    obtain rfl : job' = job := Option.some_inj.1 (hjob'.symm.trans hjob)
    have hlistens : job'.listening = true :=
      (h.listening i job' hjob).2 ⟨hdone, h.waiting i hi job' hjob⟩
    rw [mem_listeners]
    constructor
    · rintro ⟨job, hjob', -, htoken⟩
      obtain rfl : job' = job := Option.some_inj.1 (hjob.symm.trans hjob')
      exact htoken
    · exact fun htoken => ⟨job', hjob, hlistens, htoken⟩
  rw [cancel, if_neg htoken]
  dsimp only
  rw [heq, clears]
  refine ⟨_, queue, rfl, hsub, fun i job hjob => ?_, fun i => ?_⟩
  · rw [hqueue]
    exact and_congr_right fun hi => not_congr (hlisteners i hi job hjob)
  · rw [List.getElem?_map, hjobs]
    cases hjob : q.jobs[i]? with
    | none => split_ifs <;> rfl
    | some job =>
      by_cases hi : i ∈ q.queue
      · simp only [hi, and_true, hlisteners i hi job hjob, if_true]
        by_cases htoken : job.token = token
        · simp only [if_pos htoken, Option.map_some]
          exact congrArg some (if_pos htoken)
        · simp only [if_neg htoken, Option.map_some]
      · simp only [hi, and_false, if_false]

/-- A token that is cancelled ends its jobs that wait, and keeps the invariant. -/
theorem Invariant.cancel (h : q.Invariant) (token : Nat) : (q.cancel token).Invariant := by
  by_cases htoken : token ∈ q.cancelled
  · rw [DecodeQueue.cancel, if_pos htoken]
    exact h
  obtain ⟨jobs, queue, heq, hsub, hqueue, hjobs⟩ := h.cancel_spec htoken
  rw [heq]
  -- A job of the token has ended if it waited, and is not listened to any more if it runs; the
  -- queue has lost those that waited.
  have hjob : ∀ i job', jobs[i]? = some job' → ∃ job, q.jobs[i]? = some job ∧
      job' = if job.token = token then
        if i ∈ q.queue then job.ends .cancelled else { job with listening := false } else job := by
    intro i job' hjob'
    rw [hjobs] at hjob'
    obtain ⟨job, hjob, rfl⟩ := Option.map_eq_some_iff.1 hjob'
    exact ⟨job, hjob, rfl⟩
  have happend : ∀ t, t ∈ q.cancelled ++ [token] ↔ t ∈ q.cancelled ∨ t = token := fun t => by
    rw [List.mem_append, List.mem_singleton]
  have hwaits : ∀ i ∈ queue, ∀ job', jobs[i]? = some job' →
      q.jobs[i]? = some job' ∧ i ∈ q.queue ∧ job'.token ≠ token := by
    intro i hi job' hjob'
    obtain ⟨job, hold, rfl⟩ := hjob i job' hjob'
    obtain ⟨hi', hne⟩ := (hqueue i job hold).1 hi
    rw [if_neg hne]
    exact ⟨hold, hi', hne⟩
  refine ⟨⟨h.active, h.room, hsub.length_le.trans h.short,
    h.ordered.sublist (hsub.append_left _), fun i => ?_, fun i job' hjob' => ?_,
    fun i hi job' hjob' => ?_, fun i hi j job' hij hjob' => ?_, fun job' hjob' => ?_, h.unused⟩,
    fun hne => h.busy fun hnil => hne ?_⟩
  · have hunfinished := h.unfinished i
    rw [List.mem_append] at hunfinished
    rw [List.mem_append]
    constructor
    · rintro (hi | hi)
      · obtain ⟨job, hold, hdone⟩ := hunfinished.1 (Or.inl hi)
        have hnot : i ∉ q.queue := fun hi' => (List.nodup_append.1 h.nodup).2.2 i hi i hi' rfl
        refine ⟨_, (hjobs i).trans (congrArg _ hold), ?_⟩
        dsimp only
        rw [if_neg hnot]
        split_ifs <;> exact hdone
      · obtain ⟨job, hold, hdone⟩ := hunfinished.1 (Or.inr (hsub.subset hi))
        have hne := ((hqueue i job hold).1 hi).2
        refine ⟨_, (hjobs i).trans (congrArg _ hold), ?_⟩
        dsimp only
        rw [if_neg hne]
        exact hdone
    · rintro ⟨job', hjob', hdone⟩
      obtain ⟨job, hold, rfl⟩ := hjob i job' hjob'
      split_ifs at hdone with hsame hi
      · cases hdone
      · exact Or.inl ((hunfinished.2 ⟨job, hold, hdone⟩).resolve_right hi)
      · exact (hunfinished.2 ⟨job, hold, hdone⟩).imp_right fun hi =>
          (hqueue i job hold).2 ⟨hi, hsame⟩
  · obtain ⟨job, hold, rfl⟩ := hjob i job' hjob'
    have hlistening := h.listening i job hold
    by_cases hsame : job.token = token
    · have hdeaf : (if i ∈ q.queue then job.ends .cancelled
          else { job with listening := false }).listening = false ∧
          (if i ∈ q.queue then job.ends .cancelled
            else { job with listening := false }).token = token := by
        split_ifs <;> exact ⟨rfl, hsame⟩
      rw [if_pos hsame, hdeaf.1, hdeaf.2, happend]
      exact ⟨fun h => absurd h Bool.false_ne_true, fun h => absurd (Or.inr rfl) h.2⟩
    · rw [if_neg hsame, hlistening, happend, not_or]
      exact ⟨fun h => ⟨h.1, h.2, hsame⟩, fun h => ⟨h.1, h.2.1⟩⟩
  · obtain ⟨hold, hi', hne⟩ := hwaits i hi job' hjob'
    rw [happend, not_or]
    exact ⟨h.waiting i hi' job' hold, hne⟩
  · obtain ⟨job, hold, rfl⟩ := hjob j job' hjob'
    have hovertaken := h.overtaken i (hsub.subset hi) j job hij hold
    split_ifs with hsame hj
    · exact Or.inr rfl
    · exact Or.inr (hovertaken.resolve_left hj)
    · exact hovertaken.imp_left fun hj => (hqueue j job hold).2 ⟨hj, hsame⟩
  · obtain ⟨i, hi⟩ := List.getElem?_of_mem hjob'
    obtain ⟨job, hold, rfl⟩ := hjob i job' hi
    have hsmall := h.small job (List.mem_of_getElem? hold)
    split_ifs <;> exact hsmall
  · rw [hnil] at hsub
    exact List.sublist_nil.1 hsub

/-! ## Runs -/

/-- Every event keeps the invariant. -/
theorem Invariant.step (h : q.Invariant) {e : Event} {q' : DecodeQueue}
    (hstep : q.step e = some q') : q'.Invariant := by
  cases e with
  | decode bytes token =>
    obtain rfl := Option.some_inj.1 hstep
    exact h.decode bytes token
  | cancel token =>
    obtain rfl := Option.some_inj.1 hstep
    exact h.cancel token
  | settle j o =>
    rw [DecodeQueue.step] at hstep
    split_ifs at hstep with hj
    obtain rfl := Option.some_inj.1 hstep
    exact h.settle hj o

/-- A queue that hosts and decoders can bring about. -/
def Reached (q : DecodeQueue) : Prop := ∃ events, Runs.run step {} events = some q

/-- What is reached has the invariant. -/
theorem Reached.invariant (h : q.Reached) : q.Invariant := by
  obtain ⟨events, hrun⟩ := h
  exact Runs.run_invariant (fun _ _ _ h hstep => h.step hstep) hrun invariant_empty

/-- A queue goes on from another: no job is forgotten or completed anew, and none of a token that
    was cancelled is completed with pixels. -/
structure Follows (q q' : DecodeQueue) : Prop where
  cancelled : q.cancelled ⊆ q'.cancelled
  jobs : ∀ (j : Nat) (job : DecodeJob), q.jobs[j]? = some job →
    ∃ job' : DecodeJob, q'.jobs[j]? = some job' ∧ job'.token = job.token ∧
      (job.done ≠ none → job'.done = job.done) ∧
      (job.token ∈ q.cancelled → job.done = none → job'.done ≠ some .pixels)

/-- A job that has not ended has not answered pixels. -/
theorem not_pixels {job : DecodeJob} (_ : job.token ∈ q.cancelled) (hdone : job.done = none) :
    job.done ≠ some .pixels := by
  rw [hdone]
  exact (Option.some_ne_none _).symm

theorem Follows.refl (q : DecodeQueue) : q.Follows q :=
  ⟨List.Subset.refl _, fun _ job hjob => ⟨job, hjob, rfl, fun _ => rfl, not_pixels⟩⟩

/-- What follows a state that follows another follows that one. -/
theorem Follows.trans {q₁ q₂ q₃ : DecodeQueue} (h : q₁.Follows q₂) (h' : q₂.Follows q₃) :
    q₁.Follows q₃ := by
  refine ⟨List.Subset.trans h.cancelled h'.cancelled, fun j job hjob => ?_⟩
  obtain ⟨job₂, hjob₂, htoken, hdone, hpixels⟩ := h.jobs j job hjob
  obtain ⟨job₃, hjob₃, htoken', hdone', hpixels'⟩ := h'.jobs j job₂ hjob₂
  refine ⟨job₃, hjob₃, htoken'.trans htoken, fun hne => ?_, fun hcancelled hnone => ?_⟩
  · have heq := hdone hne
    exact (hdone' (heq ▸ hne)).trans heq
  · by_cases hopen : job₂.done = none
    · exact hpixels' (htoken ▸ h.cancelled hcancelled) hopen
    · rw [hdone' hopen]
      exact hpixels hcancelled hnone

/-- Every event leaves a state that follows. -/
theorem Invariant.follows (h : q.Invariant) {e : Event} {q' : DecodeQueue}
    (hstep : q.step e = some q') : q.Follows q' := by
  cases e with
  | decode bytes token =>
    obtain rfl := Option.some_inj.1 hstep
    rw [DecodeQueue.decode]
    split_ifs
    · exact .refl q
    · exact .refl q
    · refine ⟨List.Subset.refl _, fun j job hjob => ?_⟩
      exact ⟨job, getElem?_push.2 (Or.inl hjob), rfl, fun _ => rfl, not_pixels⟩
  | cancel token =>
    obtain rfl := Option.some_inj.1 hstep
    by_cases htoken : token ∈ q.cancelled
    · rw [DecodeQueue.cancel, if_pos htoken]
      exact .refl q
    · obtain ⟨jobs, queue, heq, -, -, hjobs⟩ := h.cancel_spec htoken
      rw [heq]
      refine ⟨List.subset_append_left _ _,
        fun j job hjob => ⟨_, (hjobs j).trans (congrArg _ hjob), ?_⟩⟩
      dsimp only
      split_ifs with hsame hj
      -- A job ends once, so that what it was completed with stays.
      · -- A job that waits was not completed before.
        obtain ⟨job', hjob', hdone⟩ := h.done_eq (List.mem_append_right _ hj)
        obtain rfl : job = job' := Option.some_inj.1 (hjob.symm.trans hjob')
        exact ⟨rfl, fun hne => absurd hdone hne, fun _ _ => nofun⟩
      · exact ⟨rfl, fun _ => rfl, not_pixels⟩
      · exact ⟨rfl, fun _ => rfl, not_pixels⟩
  | settle j o =>
    rw [DecodeQueue.step] at hstep
    split_ifs at hstep with hj
    obtain rfl := Option.some_inj.1 hstep
    rw [h.settle_eq hj]
    refine ⟨List.Subset.refl _, fun i job hjob => ?_⟩
    by_cases hij : j = i
    · subst hij
      obtain ⟨job', hjob', hdone⟩ := h.done_eq (List.mem_append_left _ hj)
      obtain rfl : job = job' := Option.some_inj.1 (hjob.symm.trans hjob')
      refine ⟨job.ends (q.outcome j o), ?_, rfl, fun hne => absurd hdone hne,
        fun hcancelled _ hpixels => ?_⟩
      · exact (List.getElem?_modify_eq _ _ _).trans (congrArg _ hjob)
      · -- The token is checked once more before the pixels are given.
        have houtcome : q.outcome j o = .pixels := Option.some_inj.1 hpixels
        rw [outcome, hjob, Option.any_some, decide_eq_true hcancelled] at houtcome
        split_ifs at houtcome with ho
        exact ho ⟨houtcome, rfl⟩
    · exact ⟨job, (List.getElem?_modify_ne _ _ hij).trans hjob, rfl, fun _ => rfl, not_pixels⟩

/-- A token is cancelled by its own event only. -/
theorem Invariant.mem_cancelled (h : q.Invariant) {e : Event} {q' : DecodeQueue}
    (hstep : q.step e = some q') (t : Nat) :
    t ∈ q'.cancelled ↔ t ∈ q.cancelled ∨ e = .cancel t := by
  cases e with
  | decode bytes token =>
    obtain rfl := Option.some_inj.1 hstep
    have hsame : (q.decode bytes token).2.cancelled = q.cancelled := by
      rw [DecodeQueue.decode]
      split_ifs <;> rfl
    rw [hsame]
    exact (or_iff_left nofun).symm
  | cancel token =>
    obtain rfl := Option.some_inj.1 hstep
    rw [Event.cancel.injEq]
    by_cases htoken : token ∈ q.cancelled
    · rw [DecodeQueue.cancel, if_pos htoken]
      exact (or_iff_left_of_imp fun heq => heq ▸ htoken).symm
    · obtain ⟨jobs, queue, heq, -⟩ := h.cancel_spec htoken
      rw [heq, List.mem_append, List.mem_singleton, eq_comm (a := t)]
  | settle j o =>
    rw [DecodeQueue.step] at hstep
    split_ifs at hstep with hj
    obtain rfl := Option.some_inj.1 hstep
    rw [h.settle_eq hj]
    exact (or_iff_left nofun).symm

/-- The tokens of the jobs are those that were given with them. -/
theorem Invariant.forall_token (h : q.Invariant) {P : Nat → Prop}
    (hP : ∀ (j : Nat) (job : DecodeJob), q.jobs[j]? = some job → P job.token) {e : Event}
    {q' : DecodeQueue} (hstep : q.step e = some q')
    (hnew : ∀ bytes token, e = .decode bytes token → P token) (j : Nat) (job : DecodeJob)
    (hjob : q'.jobs[j]? = some job) : P job.token := by
  cases e with
  | decode bytes token =>
    obtain rfl := Option.some_inj.1 hstep
    rw [DecodeQueue.decode] at hjob
    split_ifs at hjob
    · exact hP j job hjob
    · exact hP j job hjob
    · rcases getElem?_push.1 hjob with hold | ⟨-, rfl⟩
      · exact hP j job hold
      · exact hnew bytes token rfl
  | cancel token =>
    obtain rfl := Option.some_inj.1 hstep
    by_cases htoken : token ∈ q.cancelled
    · rw [DecodeQueue.cancel, if_pos htoken] at hjob
      exact hP j job hjob
    · obtain ⟨jobs, queue, heq, -, -, hjobs⟩ := h.cancel_spec htoken
      rw [heq] at hjob
      obtain ⟨job', hold, rfl⟩ := Option.map_eq_some_iff.1 ((hjobs j).symm.trans hjob)
      have hsame := hP j job' hold
      split_ifs <;> exact hsame
  | settle j' o =>
    rw [DecodeQueue.step] at hstep
    split_ifs at hstep with hj
    obtain rfl := Option.some_inj.1 hstep
    rw [h.settle_eq hj] at hjob
    rcases getElem?_modify_cases hjob with ⟨-, hold⟩ | ⟨-, job', hold, rfl⟩
    · exact hP j job hold
    · exact hP j' job' hold

/-- A run leaves a state that follows, with the invariant. -/
theorem Invariant.run_follows (h : q.Invariant) {events : List Event} {q' : DecodeQueue}
    (hrun : Runs.run DecodeQueue.step q events = some q') : q'.Invariant ∧ q.Follows q' := by
  refine Runs.run_invariant (P := fun q' => q'.Invariant ∧ q.Follows q') ?_ hrun ⟨h, .refl q⟩
  rintro q₁ e q₂ ⟨h₁, hfollows⟩ hstep
  exact ⟨h₁.step hstep, hfollows.trans (h₁.follows hstep)⟩

/-- At most two jobs are decoded and eight wait, none while a decoder is idle. Each job that was taken
    waits, is decoded or is done, and its future is completed once. Those that wait are decoded in the
    order they came, and none that is done, or whose token is cancelled, listens any more. -/
theorem run_served (h : q.Reached) : q.Invariant := h.invariant

/-- Three jobs, the last two of one token. -/
def three : DecodeQueue :=
  (Runs.run step {} [.decode 10 0, .decode 10 1, .decode 10 1]).getD {}

/-- The token is cancelled: one of its jobs is decoded, the other waits. -/
def cancelledThree : DecodeQueue := three.cancel 1

theorem reached_three : three.Reached :=
  ⟨[.decode 10 0, .decode 10 1, .decode 10 1], by decide⟩

theorem reached_cancelledThree : cancelledThree.Reached :=
  ⟨[.decode 10 0, .decode 10 1, .decode 10 1, .cancel 1], by decide⟩

/-- Three jobs are given, two of them run. -/
theorem run_served_three : three.queue = [2] ∧ three.Invariant :=
  ⟨by decide, run_served reached_three⟩

/-- What is not done as its token is cancelled is not completed with pixels, whatever follows. Where
    it is not decoded then, it is done, and stays so. -/
theorem cancelled_stays (h : q.Reached) {j : Nat} {job : DecodeJob} (hjob : q.jobs[j]? = some job)
    (hcancelled : job.token ∈ q.cancelled) {events : List Event} {q' : DecodeQueue}
    (hrun : Runs.run step q events = some q') :
    ∃ job', q'.jobs[j]? = some job' ∧
      (job.done ≠ some .pixels → job'.done ≠ some .pixels) ∧
      (j ∉ q.running → job.done ≠ none ∧ job'.done = job.done ∧ j ∉ q'.running) := by
  have hq := h.invariant
  obtain ⟨hq', hfollows⟩ := hq.run_follows hrun
  obtain ⟨job', hjob', -, hdone, hpixels⟩ := hfollows.jobs j job hjob
  refine ⟨job', hjob', fun hne => ?_, fun hidle => ?_⟩
  · by_cases hopen : job.done = none
    · exact hpixels hcancelled hopen
    · rw [hdone hopen]
      exact hne
  · have hclosed : job.done ≠ none := by
      intro hopen
      rcases List.mem_append.1 ((hq.unfinished j).2 ⟨job, hjob, hopen⟩) with hj | hj
      · exact hidle hj
      · exact hq.waiting j hj job hjob hcancelled
    refine ⟨hclosed, hdone hclosed, fun hj => ?_⟩
    obtain ⟨job₂, hjob₂, hopen⟩ := hq'.done_eq (List.mem_append_left _ hj)
    obtain rfl : job' = job₂ := Option.some_inj.1 (hjob'.symm.trans hjob₂)
    exact hclosed ((hdone hclosed).symm.trans hopen)

/-- The second one is cancelled while it runs, and answers no pixels when it settles. -/
theorem cancelled_stays_three : ∃ job, (cancelledThree.settle 1 .pixels).jobs[1]? = some job ∧
    job.done ≠ some .pixels := by
  have hopen : ∃ job, cancelledThree.jobs[1]? = some job ∧ job.token ∈ cancelledThree.cancelled ∧
      job.done ≠ some .pixels := ⟨⟨1, 10, none, false⟩, by decide⟩
  obtain ⟨job, hjob, hcancelled, hne⟩ := hopen
  have hrun : Runs.run step cancelledThree [.settle 1 .pixels] =
      some (cancelledThree.settle 1 .pixels) := by
    decide
  obtain ⟨job', hjob', hstays, -⟩ := cancelled_stays reached_cancelledThree hjob hcancelled hrun
  exact ⟨job', hjob', hstays hne⟩

/-! ## Draining to the end -/

/-- Each settle leaves one job less. -/
theorem Invariant.settle_count (h : q.Invariant) {j : Nat} (hj : j ∈ q.running) (o : PreviewOutcome) :
    ((q.settle j o).running ++ (q.settle j o).queue).length + 1 =
      (q.running ++ q.queue).length := by
  have hactive : q.active - 1 ≤ maxActive :=
    (Nat.sub_le _ _).trans (h.active ▸ h.room)
  have hpositive := List.length_pos_of_mem hj
  rw [h.settle_eq hj, drain_held hactive, List.length_append, List.length_append]
  dsimp only
  rw [List.length_erase_of_mem hj]
  omega

/-- The queue drains: each decoder that settles leaves one job less, and once none runs all that was
    taken is done. -/
theorem settled_all (h : q.Reached) {events : List Event}
    (hsettles : ∀ e ∈ events, ∃ j o, e = .settle j o) {q' : DecodeQueue}
    (hrun : Runs.run step q events = some q') :
    (q'.running ++ q'.queue).length + events.length = (q.running ++ q.queue).length ∧
      (q'.running = [] → ∀ job ∈ q'.jobs, job.done ≠ none) := by
  have hq := h.invariant
  obtain ⟨hq', -⟩ := hq.run_follows hrun
  refine ⟨?_, fun hidle job hjob hopen => ?_⟩
  · clear h hq'
    induction events generalizing q with
    | nil =>
      obtain rfl := Option.some_inj.1 hrun
      rfl
    | cons e events ih =>
      obtain ⟨q₁, hstep, hrest⟩ := Runs.run_cons_eq_some.1 hrun
      have hcount := ih (fun e he => hsettles e (List.mem_cons_of_mem _ he)) hrest (hq.step hstep)
      obtain ⟨j, o, rfl⟩ := hsettles e List.mem_cons_self
      rw [step] at hstep
      split_ifs at hstep with hj
      obtain rfl := Option.some_inj.1 hstep
      rw [← hq.settle_count hj o, ← hcount]
      rfl
  · obtain ⟨j, hget⟩ := List.getElem?_of_mem hjob
    have hheld := (hq'.unfinished j).2 ⟨job, hget, hopen⟩
    rw [hidle, List.nil_append] at hheld
    -- A job that waits is behind two that are decoded.
    have hbusy := hq'.busy (List.ne_nil_of_mem hheld)
    rw [hidle] at hbusy
    cases hbusy

/-- Three settles end three jobs. -/
theorem settled_all_three : ∃ q', Runs.run step three
    [.settle 1 .failed, .settle 0 .pixels, .settle 2 .pixels] = some q' ∧ q'.running = [] ∧
      ∀ job ∈ q'.jobs, job.done ≠ none := by
  have hrun : Runs.run step three [.settle 1 .failed, .settle 0 .pixels, .settle 2 .pixels] =
      some (((three.settle 1 .failed).settle 0 .pixels).settle 2 .pixels) := by
    decide
  have hsettles : ∀ e ∈ [Event.settle 1 .failed, .settle 0 .pixels, .settle 2 .pixels],
      ∃ j o, e = .settle j o := by
    intro e he
    rcases List.mem_cons.1 he with rfl | he
    · exact ⟨_, _, rfl⟩
    · rcases List.mem_cons.1 he with rfl | he
      · exact ⟨_, _, rfl⟩
      · exact ⟨_, _, List.mem_singleton.1 he⟩
  have hidle : (((three.settle 1 .failed).settle 0 .pixels).settle 2 .pixels).running = [] := by
    decide
  exact ⟨_, hrun, hidle, (settled_all reached_three hsettles hrun).2 hidle⟩

end DecodeQueue

end Flark
