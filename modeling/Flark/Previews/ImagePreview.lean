import Flark.Previews.DecodeQueue

/-!
# Image previews

The previews that are mounted load their images over one queue of decoders, each request with a
client and a token of its own. `_ImagePreviewState` and `loadPreviewImage` of `image_previews.dart`.

The model is a machine over the calls of the framework, what comes from the network, the timers, the
ends of decoders, and the continuations of what waits for a future: in any order, also once a client
is closed. A load is named by its number, and so are its client and its token. Uris are of any type;
`http` says which of them can be asked for.

* `Previews.Invariant`: what every event keeps;
* `Previews.shows_current`: a preview shows the image of its uri, or why there is none;
* `Previews.releases`: what is not waited for is given up.
-/

namespace Flark

/-- What the future of a load comes to: the pixels of a job, or an error. -/
inductive LoadAnswer
  | image (job : Nat)
  | error
  deriving DecidableEq, Repr

/-- Where `loadPreviewImage` waits. -/
inductive LoadStage
  | sending
  | receiving (bytes : Nat)
  | decoding (job : Nat)
  | finished
  deriving DecidableEq, Repr

/-- A run of `_load` that asked for its uri. -/
structure PreviewLoad (U : Type) where
  preview : Nat
  epoch : Nat
  uri : U
  /-- Its client is closed. -/
  closed : Bool := false
  stage : LoadStage := .sending
  /-- What its future was completed with, or the timer. -/
  answer : Option LoadAnswer := none
  /-- It has gone on to its end. -/
  ended : Bool := false
  deriving DecidableEq, Repr

inductive PreviewError
  | unavailable
  | failed
  deriving DecidableEq, Repr

/-- `_ImagePreviewState`. -/
structure Preview (U : Type) where
  /-- The uri of its widget. -/
  uri : Option U
  mounted : Bool := true
  epoch : Nat := 0
  /-- The load whose client is `_client`. -/
  client : Option Nat := none
  /-- The load whose token is `_decode`. -/
  decode : Option Nat := none
  /-- The job whose pixels are `_source`. -/
  source : Option Nat := none
  error : Option PreviewError := none
  deriving DecidableEq, Repr

structure Previews (U : Type) where
  previews : List (Preview U) := []
  loads : List (PreviewLoad U) := []
  decoder : DecodeQueue := {}
  deriving DecidableEq, Repr

namespace Previews

variable {U : Type} (http : U → Bool) (s : Previews U)

/-- `maxBytes` of `loadPreviewImage`. -/
def maxBytes : Nat := 4 * 1024 * 1024

/-! ## Loads -/

/-- `close` of the client of a load. -/
def close (l : Nat) : Previews U :=
  { s with loads := s.loads.modify l fun load => { load with closed := true } }

/-- `cancel` of the token of a load. -/
def cancel (l : Nat) : Previews U := { s with decoder := s.decoder.cancel l }

/-- `_client?.close()` and `_decode?.cancel()`. -/
def givesUp (p : Preview U) : Previews U :=
  let s := p.client.elim s s.close
  p.decode.elim s s.cancel

/-- `_load` up to where it waits, for the widget of a preview. -/
def load (w : Nat) (p : Preview U) : Previews U :=
  let s := s.givesUp p
  let p := { p with epoch := p.epoch + 1, decode := none, source := none, error := none }
  match p.uri.filter http with
  | none => { s with previews := s.previews.set w { p with error := some .unavailable } }
  | some uri => { s with
      previews := s.previews.set w
        { p with client := some s.loads.length, decode := some s.loads.length }
      loads := s.loads ++ [{ preview := w, epoch := p.epoch, uri := uri }] }

/-- `loadPreviewImage` waits for something else. -/
def waits (l : Nat) (stage : LoadStage) : Previews U :=
  { s with loads := s.loads.modify l fun load => { load with stage := stage } }

/-- `loadPreviewImage` is over. What the timer answered before stays. -/
def answers (l : Nat) (answer : LoadAnswer) : Previews U :=
  { s with loads := s.loads.modify l fun load =>
      { load with stage := .finished, answer := load.answer.or (some answer) } }

/-! ## Events -/

inductive Event (U : Type)
  /-- `initState`. -/
  | mount (uri : Option U)
  /-- `didUpdateWidget`. -/
  | update (w : Nat) (uri : Option U)
  /-- `dispose`. -/
  | unmount (w : Nat)
  /-- A response, with whether its status is 200, and its length. -/
  | responds (l : Nat) (ok : Bool) (contentLength : Option Nat)
  /-- The request, or the stream of its response, throws. -/
  | throws (l : Nat)
  | chunk (l : Nat) (bytes : Nat)
  /-- The end of the stream. -/
  | closes (l : Nat)
  /-- A decoder settles. -/
  | settles (j : Nat) (o : PreviewOutcome)
  /-- `loadPreviewImage` goes on from `decode`. -/
  | decoded (l : Nat)
  /-- The timer of a load. -/
  | times (l : Nat)
  /-- `_load` goes on to its end. -/
  | ends (l : Nat)
  deriving DecidableEq, Repr

/-- `await for`: what a chunk of a response comes to. -/
def receives (l : Nat) (sofar bytes : Nat) : Previews U :=
  if l ∈ s.decoder.cancelled ∨ maxBytes < sofar + bytes then s.answers l .error
  else s.waits l (.receiving (sofar + bytes))

/-- The response is whole. -/
def decodes (l : Nat) (bytes : Nat) : Previews U :=
  if l ∈ s.decoder.cancelled then s.answers l .error
  else
    match s.decoder.decode bytes l with
    | (.ok j, decoder) => { s with decoder := decoder }.waits l (.decoding j)
    | (.error _, decoder) => { s with decoder := decoder }.answers l .error

/-- What `_load` shows at its end. -/
def shown (load : PreviewLoad U) (answer : LoadAnswer) (p : Preview U) : Preview U :=
  if p.mounted ∧ load.epoch = p.epoch then
    match answer with
    | .image job => { p with source := some job }
    | .error => { p with error := some .failed }
  else p

/-- The end of `_load`. -/
def finishes (l : Nat) (load : PreviewLoad U) (answer : LoadAnswer) : Previews U :=
  let s := { s with
    previews := s.previews.modify load.preview (shown load answer)
    loads := s.loads.modify l fun load => { load with ended := true } }
  (s.cancel l).close l

/-- The previews after an event, or none where it cannot happen. -/
def step {U : Type} [DecidableEq U] (http : U → Bool) (s : Previews U) :
    Event U → Option (Previews U)
  | .mount uri =>
    let p : Preview U := { uri := uri }
    some ({ s with previews := s.previews ++ [p] }.load http s.previews.length p)
  | .update w uri =>
    match s.previews[w]? with
    | none => none
    | some p =>
      if !p.mounted then none
      else if p.uri = uri then some s
      else some (s.load http w { p with uri := uri })
  -- What is on its way is cancelled, and nothing that still arrives is of the new epoch.
  | .unmount w =>
    match s.previews[w]? with
    | none => none
    | some p =>
      if !p.mounted then none
      else some { s.givesUp p with
        previews := s.previews.set w { p with mounted := false, epoch := p.epoch + 1 } }
  | .responds l ok contentLength =>
    match s.loads[l]? with
    | some { stage := .sending, .. } =>
      if !ok || decide (maxBytes < contentLength.getD 0) then some (s.answers l .error)
      else some (s.waits l (.receiving 0))
    | _ => none
  | .throws l =>
    match s.loads[l]? with
    | some { stage := .sending, .. } | some { stage := .receiving _, .. } =>
      some (s.answers l .error)
    | _ => none
  | .chunk l bytes =>
    match s.loads[l]? with
    | some { stage := .receiving sofar, .. } => some (s.receives l sofar bytes)
    | _ => none
  | .closes l =>
    match s.loads[l]? with
    | some { stage := .receiving bytes, .. } => some (s.decodes l bytes)
    | _ => none
  | .settles j o => (s.decoder.step (.settle j o)).map fun decoder => { s with decoder := decoder }
  | .decoded l =>
    match s.loads[l]? with
    | some { stage := .decoding j, .. } =>
      match (s.decoder.jobs[j]?).bind DecodeJob.done with
      | none => none
      | some o => some (s.answers l (if o = .pixels then .image j else .error))
    | _ => none
  -- The time limit answers for the load, which goes on by itself.
  | .times l =>
    match s.loads[l]? with
    | some { answer := none, .. } => some { s with
        loads := s.loads.modify l fun load => { load with answer := some .error } }
    | _ => none
  -- The preview hears of the first answer only.
  | .ends l =>
    match s.loads[l]? with
    | some load =>
      if load.ended then none
      else
        match load.answer with
        | none => none
        | some answer => some (s.finishes l load answer)
    | none => none

/-! ## What every event keeps -/

/-- What a load has to show, whoever it is for. -/
structure Sound (decoder : DecodeQueue) (l : Nat) (load : PreviewLoad U) : Prop where
  asked : http load.uri = true
  ended : load.ended = true →
    load.closed = true ∧ l ∈ decoder.cancelled ∧ load.answer.isSome = true
  finished : load.stage = .finished → load.answer.isSome = true
  received : ∀ bytes, load.stage = .receiving bytes → bytes ≤ maxBytes
  job : ∀ j, load.stage = .decoding j → ∃ job, decoder.jobs[j]? = some job ∧ job.token = l
  image : ∀ j, load.answer = some (.image j) →
    ∃ job, decoder.jobs[j]? = some job ∧ job.token = l ∧ job.done = some .pixels

/-- A load is for the uri of the preview that it is of, or it was given up. -/
structure Owned (decoder : DecodeQueue) (l : Nat) (load : PreviewLoad U) (p : Preview U) : Prop where
  le : load.epoch ≤ p.epoch
  current : load.epoch = p.epoch →
    p.mounted = true ∧ p.client = some l ∧ p.decode = some l ∧ p.uri = some load.uri
  waits : load.epoch = p.epoch → load.ended = false →
    load.closed = false ∧ l ∉ decoder.cancelled
  given : load.epoch < p.epoch → load.closed = true ∧ l ∈ decoder.cancelled

/-- The load is the last one of a preview. -/
structure IsLast (s : Previews U) (w : Nat) (p : Preview U) (l : Nat) (load : PreviewLoad U) :
    Prop where
  get : s.loads[l]? = some load
  preview : load.preview = w
  epoch : load.epoch = p.epoch

/-- What a preview that is mounted shows. -/
inductive Shows (s : Previews U) (w : Nat) (p : Preview U) : Prop
  | unavailable (source : p.source = none) (error : p.error = some .unavailable)
      (uri : p.uri.filter http = none)
  | loading (source : p.source = none) (error : p.error = none) (l : Nat) (load : PreviewLoad U)
      (last : s.IsLast w p l load) (ended : load.ended = false)
  | failed (source : p.source = none) (error : p.error = some .failed) (l : Nat)
      (load : PreviewLoad U) (last : s.IsLast w p l load) (ended : load.ended = true)
      (answer : load.answer = some .error)
  | image (j : Nat) (source : p.source = some j) (error : p.error = none) (l : Nat)
      (load : PreviewLoad U) (last : s.IsLast w p l load) (ended : load.ended = true)
      (answer : load.answer = some (.image j))

/-- What holds of previews where all of them, or all but one, show what they should. -/
structure InvariantBut (but : Option Nat) : Prop where
  decoder : s.decoder.Invariant
  loads : ∀ (l : Nat) (load : PreviewLoad U), s.loads[l]? = some load →
    Sound http s.decoder l load ∧
      ∃ p, s.previews[load.preview]? = some p ∧ Owned s.decoder l load p
  previews : ∀ (w : Nat) (p : Preview U), some w ≠ but → s.previews[w]? = some p →
    p.mounted = true → s.Shows http w p
  /-- A preview holds the clients and tokens of its own loads. -/
  holds : ∀ (w : Nat) (p : Preview U), s.previews[w]? = some p → ∀ l,
    p.client = some l ∨ p.decode = some l → ∃ load, s.loads[l]? = some load ∧ load.preview = w
  cancelled : ∀ l ∈ s.decoder.cancelled, l < s.loads.length
  tokens : ∀ (j : Nat) (job : DecodeJob), s.decoder.jobs[j]? = some job →
    job.token < s.loads.length

/-- What holds of previews after every event. -/
abbrev Invariant : Prop := s.InvariantBut http none

variable {http} {s}

/-- Previews start with the invariant. -/
theorem invariant_empty : ({} : Previews U).Invariant http where
  decoder := DecodeQueue.invariant_empty
  loads _ _ := nofun
  previews _ _ _ := nofun
  holds _ _ := nofun
  cancelled _ := nofun
  tokens _ _ := nofun

/-- A load is sound whatever the decoder does next. -/
theorem Sound.follows {decoder decoder' : DecodeQueue} {l : Nat} {load : PreviewLoad U}
    (h : Sound http decoder l load) (hfollows : decoder.Follows decoder') :
    Sound http decoder' l load := by
  refine ⟨h.asked, fun hended => ?_, h.finished, h.received, fun j hj => ?_, fun j hj => ?_⟩
  · obtain ⟨hclosed, hcancelled, hanswer⟩ := h.ended hended
    exact ⟨hclosed, hfollows.cancelled hcancelled, hanswer⟩
  · obtain ⟨job, hjob, htoken⟩ := h.job j hj
    obtain ⟨job', hjob', htoken', -⟩ := hfollows.jobs j job hjob
    exact ⟨job', hjob', htoken'.trans htoken⟩
  · obtain ⟨job, hjob, htoken, hdone⟩ := h.image j hj
    obtain ⟨job', hjob', htoken', hdone', -⟩ := hfollows.jobs j job hjob
    exact ⟨job', hjob', htoken'.trans htoken, (hdone' (by rw [hdone]; exact nofun)).trans hdone⟩

/-! ## Loading -/

/-- `loadPreviewImage` and the decoders go on: what the previews show, and what was answered, stays
    as it is. -/
structure Goes (http : U → Bool) (s s' : Previews U) : Prop where
  previews : s'.previews = s.previews
  decoder : s'.decoder.Invariant
  follows : s.decoder.Follows s'.decoder
  cancelled : ∀ l, l ∈ s'.decoder.cancelled ↔ l ∈ s.decoder.cancelled
  tokens : ∀ (j : Nat) (job : DecodeJob), s'.decoder.jobs[j]? = some job →
    job.token < s.loads.length
  length : s'.loads.length = s.loads.length
  loads : ∀ (l : Nat) (load : PreviewLoad U), s.loads[l]? = some load → ∃ stage answer,
    s'.loads[l]? = some { load with stage := stage, answer := answer } ∧
      (load.ended = true → answer = load.answer) ∧
      Sound http s'.decoder l { load with stage := stage, answer := answer }

/-- A step that leaves the previews to their loads keeps the invariant. -/
theorem Invariant.goes {s' : Previews U} (h : s.Invariant http) (hs : Goes http s s') :
    s'.Invariant http := by
  have hback : ∀ (l : Nat) (load' : PreviewLoad U), s'.loads[l]? = some load' →
      ∃ load stage answer, s.loads[l]? = some load ∧
        load' = { load with stage := stage, answer := answer } ∧
        Sound http s'.decoder l load' := by
    intro l load' hload'
    have hl : l < s.loads.length := hs.length ▸ (List.getElem?_eq_some_iff.1 hload').1
    have hload : s.loads[l]? = some s.loads[l] := List.getElem?_eq_getElem hl
    obtain ⟨stage, answer, heq, -, hsound⟩ := hs.loads l _ hload
    obtain rfl := Option.some_inj.1 (heq.symm.trans hload')
    exact ⟨_, stage, answer, hload, rfl, hsound⟩
  have hcancelled : ∀ l, l ∉ s.decoder.cancelled → l ∉ s'.decoder.cancelled := fun l hl =>
    mt (hs.cancelled l).1 hl
  refine ⟨hs.decoder, fun l load' hload' => ?_, fun w p _ hp hmounted => ?_, fun w p hp l hl => ?_,
    fun l hl => ?_, hs.length ▸ hs.tokens⟩
  · obtain ⟨load, stage, answer, hold, rfl, hsound⟩ := hback l load' hload'
    obtain ⟨-, p, hp, howned⟩ := h.loads l load hold
    refine ⟨hsound, p, hs.previews ▸ hp, howned.le, howned.current, fun hepoch hended => ?_,
      fun hlt => ?_⟩
    · obtain ⟨hopen, hnot⟩ := howned.waits hepoch hended
      exact ⟨hopen, hcancelled l hnot⟩
    · obtain ⟨hclosed, hmem⟩ := howned.given hlt
      exact ⟨hclosed, hs.follows.cancelled hmem⟩
  · rw [hs.previews] at hp
    -- Of a load that has ended the answer stays.
    have hlast : ∀ (l : Nat) (load : PreviewLoad U), s.IsLast w p l load →
        ∃ load', s'.IsLast w p l load' ∧ load'.ended = load.ended ∧
          (load.ended = true → load'.answer = load.answer) := by
      rintro l load ⟨hload, hpreview, hepoch⟩
      obtain ⟨stage, answer, hload', hanswer, -⟩ := hs.loads l load hload
      exact ⟨_, ⟨hload', hpreview, hepoch⟩, rfl, hanswer⟩
    cases h.previews w p nofun hp hmounted with
    | unavailable hsource herror huri => exact .unavailable hsource herror huri
    | loading hsource herror l load last hended =>
      obtain ⟨load', last', hended', -⟩ := hlast l load last
      exact .loading hsource herror l load' last' (hended'.trans hended)
    | failed hsource herror l load last hended hanswer =>
      obtain ⟨load', last', hended', hanswer'⟩ := hlast l load last
      exact .failed hsource herror l load' last' (hended'.trans hended)
        ((hanswer' hended).trans hanswer)
    | image j hsource herror l load last hended hanswer =>
      obtain ⟨load', last', hended', hanswer'⟩ := hlast l load last
      exact .image j hsource herror l load' last' (hended'.trans hended)
        ((hanswer' hended).trans hanswer)
  · rw [hs.previews] at hp
    obtain ⟨load, hload, hpreview⟩ := h.holds w p hp l hl
    obtain ⟨stage, answer, hload', -⟩ := hs.loads l load hload
    exact ⟨_, hload', hpreview⟩
  · rw [hs.length]
    exact h.cancelled l ((hs.cancelled l).1 hl)

/-- The decoders go on alone. -/
theorem Invariant.withDecoder (h : s.Invariant http) {e : DecodeQueue.Event}
    {decoder : DecodeQueue} (hstep : s.decoder.step e = some decoder)
    (hcancel : ∀ t, e ≠ .cancel t)
    (hdecode : ∀ bytes token, e = .decode bytes token → token < s.loads.length) :
    ({ s with decoder := decoder } : Previews U).Invariant http := by
  have hfollows := h.decoder.follows hstep
  refine h.goes ⟨rfl, h.decoder.step hstep, hfollows, fun l => ?_,
    h.decoder.forall_token h.tokens hstep hdecode, rfl, fun l load hload => ?_⟩
  · rw [h.decoder.mem_cancelled hstep, or_iff_left (hcancel l)]
  · exact ⟨load.stage, load.answer, hload, fun _ => rfl, (h.loads l load hload).1.follows hfollows⟩

/-- One load goes on alone. -/
theorem Invariant.goes_at (h : s.Invariant http) {l : Nat} {load : PreviewLoad U}
    (hload : s.loads[l]? = some load) {f : PreviewLoad U → PreviewLoad U} {stage : LoadStage}
    {answer : Option LoadAnswer} (hf : f load = { load with stage := stage, answer := answer })
    (hended : load.ended = true → answer = load.answer)
    (hsound : Sound http s.decoder l { load with stage := stage, answer := answer }) :
    ({ s with loads := s.loads.modify l f } : Previews U).Invariant http := by
  refine h.goes ⟨rfl, h.decoder, .refl _, fun _ => Iff.rfl, h.tokens, List.length_modify _ _ _,
    fun i load' hload' => ?_⟩
  by_cases hi : l = i
  · subst hi
    obtain rfl : load = load' := Option.some_inj.1 (hload.symm.trans hload')
    refine ⟨stage, answer, ?_, hended, hsound⟩
    dsimp only
    rw [List.getElem?_modify_eq, hload, ← hf]
    rfl
  · exact ⟨load'.stage, load'.answer, (List.getElem?_modify_ne _ _ hi).trans hload',
      fun _ => rfl, (h.loads i load' hload').1⟩

/-- A load that goes on to another stage keeps the invariant. -/
theorem Invariant.waits (h : s.Invariant http) {l : Nat} {load : PreviewLoad U}
    (hload : s.loads[l]? = some load) {stage : LoadStage} (hfinished : stage ≠ .finished)
    (hreceived : ∀ bytes, stage = .receiving bytes → bytes ≤ maxBytes)
    (hjob : ∀ j, stage = .decoding j → ∃ job, s.decoder.jobs[j]? = some job ∧ job.token = l) :
    (s.waits l stage).Invariant http := by
  have hsound := (h.loads l load hload).1
  exact h.goes_at hload rfl (fun _ => rfl)
    ⟨hsound.asked, hsound.ended, fun h => absurd h hfinished, hreceived, hjob, hsound.image⟩

/-- A load that is answered keeps the invariant. -/
theorem Invariant.answers (h : s.Invariant http) {l : Nat} {load : PreviewLoad U}
    (hload : s.loads[l]? = some load) {answer : LoadAnswer}
    (hanswer : ∀ j, answer = .image j → ∃ job, s.decoder.jobs[j]? = some job ∧ job.token = l ∧
      job.done = some .pixels) :
    (s.answers l answer).Invariant http := by
  have hsound := (h.loads l load hload).1
  have hsome : (load.answer.or (some answer)).isSome = true := by
    rw [Option.isSome_or, Option.isSome_some, Bool.or_true]
  refine h.goes_at hload rfl (fun hended => ?_) ⟨hsound.asked, fun hended => ?_, fun _ => hsome,
    nofun, nofun, fun j hj => ?_⟩
  · obtain ⟨-, -, hanswered⟩ := hsound.ended hended
    exact Option.or_eq_left_of_isSome hanswered
  · obtain ⟨hclosed, hcancelled, -⟩ := hsound.ended hended
    exact ⟨hclosed, hcancelled, hsome⟩
  · rcases Option.or_eq_some_iff.1 hj with hold | ⟨-, hnew⟩
    · exact hsound.image j hold
    · exact hanswer j (Option.some_inj.1 hnew)

/-- A load that fails keeps the invariant. -/
theorem Invariant.answers_error (h : s.Invariant http) {l : Nat} {load : PreviewLoad U}
    (hload : s.loads[l]? = some load) : (s.answers l .error).Invariant http :=
  h.answers hload nofun

/-- A load that receives bytes keeps the invariant, within the limit or failed by it. -/
theorem Invariant.receives (h : s.Invariant http) {l : Nat} {load : PreviewLoad U}
    (hload : s.loads[l]? = some load) (sofar bytes : Nat) :
    (s.receives l sofar bytes).Invariant http := by
  rw [Previews.receives]
  split_ifs with hrefused
  · exact h.answers_error hload
  · rw [not_or, not_lt] at hrefused
    refine h.waits hload nofun (fun n hn => ?_) nofun
    rw [← LoadStage.receiving.inj hn]
    exact hrefused.2

/-- A load that is decoded keeps the invariant. -/
theorem Invariant.decodes (h : s.Invariant http) {l : Nat} {load : PreviewLoad U}
    (hload : s.loads[l]? = some load) (bytes : Nat) : (s.decodes l bytes).Invariant http := by
  have hl := (List.getElem?_eq_some_iff.1 hload).1
  rw [Previews.decodes]
  split_ifs
  · exact h.answers_error hload
  · have hdecoder := h.withDecoder (e := .decode bytes l) rfl (fun _ => nofun)
      fun _ _ heq => (DecodeQueue.Event.decode.inj heq).2 ▸ hl
    rcases hdecode : s.decoder.decode bytes l with ⟨o | j, decoder⟩
    · rw [hdecode] at hdecoder
      exact hdecoder.answers_error hload
    · rw [hdecode] at hdecoder
      refine hdecoder.waits hload nofun nofun fun j' hj' => ?_
      rw [← LoadStage.decoding.inj hj']
      exact DecodeQueue.decode_ok hdecode

/-! ## The end of a load -/

/-- A token is cancelled with those that were. -/
theorem mem_cancel (h : s.decoder.Invariant) (l t : Nat) :
    t ∈ (s.decoder.cancel l).cancelled ↔ t ∈ s.decoder.cancelled ∨ t = l := by
  rw [h.mem_cancelled (e := .cancel l) rfl, DecodeQueue.Event.cancel.injEq, eq_comm (a := l)]

/-- What a preview shows depends on its last load only. -/
theorem Shows.of_last {s' : Previews U} {w : Nat} {p : Preview U} (h : s.Shows http w p)
    (hlast : ∀ l load, s.IsLast w p l load → s'.loads[l]? = some load) : s'.Shows http w p := by
  cases h with
  | unavailable hsource herror huri => exact .unavailable hsource herror huri
  | loading hsource herror l load last hended =>
    exact .loading hsource herror l load ⟨hlast l load last, last.preview, last.epoch⟩ hended
  | failed hsource herror l load last hended hanswer =>
    exact .failed hsource herror l load ⟨hlast l load last, last.preview, last.epoch⟩ hended hanswer
  | image j hsource herror l load last hended hanswer =>
    exact .image j hsource herror l load ⟨hlast l load last, last.preview, last.epoch⟩ hended hanswer

/-- The last load of a preview is one. -/
theorem Invariant.last_unique (h : s.Invariant http) {w : Nat} {p : Preview U}
    (hp : s.previews[w]? = some p) {l l' : Nat} {load load' : PreviewLoad U}
    (hlast : s.IsLast w p l load) (hlast' : s.IsLast w p l' load') : l = l' := by
  have hclient : ∀ l load, s.IsLast w p l load → p.client = some l := by
    rintro l load ⟨hload, rfl, hepoch⟩
    obtain ⟨-, p', hp', howned⟩ := h.loads l load hload
    obtain rfl : p = p' := Option.some_inj.1 (hp.symm.trans hp')
    exact (howned.current hepoch).2.1
  exact Option.some_inj.1 ((hclient l load hlast).symm.trans (hclient l' load' hlast'))

/-- A preview whose last load goes on shows nothing yet. -/
theorem Invariant.shows_nothing (h : s.Invariant http) {w : Nat} {p : Preview U}
    (hp : s.previews[w]? = some p) (hmounted : p.mounted = true) {l : Nat} {load : PreviewLoad U}
    (hlast : s.IsLast w p l load) (hended : load.ended = false) :
    p.source = none ∧ p.error = none := by
  obtain ⟨hsound, p', hp', howned⟩ := h.loads l load hlast.get
  obtain rfl : p = p' := Option.some_inj.1 (hp.symm.trans (hlast.preview ▸ hp'))
  have hopen : ∀ l' load', s.IsLast w p l' load' → load'.ended ≠ true := by
    intro l' load' hlast' hended'
    obtain rfl := h.last_unique hp hlast hlast'
    obtain rfl : load = load' := Option.some_inj.1 (hlast.get.symm.trans hlast'.get)
    rw [hended] at hended'
    cases hended'
  cases h.previews w p nofun hp hmounted with
  | unavailable hsource herror huri =>
    rw [(howned.current hlast.epoch).2.2.2, Option.filter_some_pos hsound.asked] at huri
    cases huri
  | loading hsource herror => exact ⟨hsource, herror⟩
  | failed hsource herror l' load' last hended' => exact absurd hended' (hopen l' load' last)
  | image j hsource herror l' load' last hended' => exact absurd hended' (hopen l' load' last)

/-- What a preview is, but for what it shows. -/
structure SameHold (p p' : Preview U) : Prop where
  uri : p'.uri = p.uri
  mounted : p'.mounted = p.mounted
  epoch : p'.epoch = p.epoch
  client : p'.client = p.client
  decode : p'.decode = p.decode

/-- Who owns a load goes by what previews hold. -/
theorem Owned.sameHold {decoder : DecodeQueue} {l : Nat} {load : PreviewLoad U} {p p' : Preview U}
    (h : Owned decoder l load p) (hp : SameHold p p') : Owned decoder l load p' := by
  obtain ⟨huri, hmounted, hepoch, hclient, hdecode⟩ := hp
  refine ⟨hepoch ▸ h.le, fun heq => ?_, fun heq => h.waits (heq.trans hepoch),
    fun hlt => h.given (hepoch ▸ hlt)⟩
  rw [hmounted, hclient, hdecode, huri]
  exact h.current (heq.trans hepoch)

/-- A load that is cancelled leaves the others to their owners. -/
theorem Owned.cancel {decoder : DecodeQueue} (hdecoder : decoder.Invariant) {l i : Nat}
    {load : PreviewLoad U} {p : Preview U} (h : Owned decoder i load p) (hi : i ≠ l) :
    Owned (decoder.cancel l) i load p := by
  have hmem := hdecoder.mem_cancelled (e := .cancel l) rfl i
  rw [DecodeQueue.Event.cancel.injEq] at hmem
  refine ⟨h.le, h.current, fun hepoch hended => ?_, fun hlt => ?_⟩
  · obtain ⟨hopen, hnot⟩ := h.waits hepoch hended
    exact ⟨hopen, fun hcancelled => (hmem.1 hcancelled).elim hnot fun heq => hi heq.symm⟩
  · obtain ⟨hclosed, hcancelled⟩ := h.given hlt
    exact ⟨hclosed, hmem.2 (Or.inl hcancelled)⟩

/-- An answer that is shown leaves what the preview holds. -/
theorem sameHold_shown (load : PreviewLoad U) (answer : LoadAnswer) (p : Preview U) :
    SameHold p (shown load answer p) := by
  rw [shown.eq_def]
  split_ifs
  · cases answer <;> exact ⟨rfl, rfl, rfl, rfl, rfl⟩
  · exact ⟨rfl, rfl, rfl, rfl, rfl⟩

/-- A load that finishes shows its answer and is closed. -/
theorem finishes_eq (l : Nat) (load : PreviewLoad U) (answer : LoadAnswer) :
    s.finishes l load answer = {
      previews := s.previews.modify load.preview (shown load answer)
      loads := s.loads.modify l fun load => { load with ended := true, closed := true }
      decoder := s.decoder.cancel l } := by
  rw [finishes, close, cancel, List.modify_modify_eq]
  rfl

/-- A load that finishes keeps the invariant, mounted or not. -/
theorem Invariant.finishes (h : s.Invariant http) {l : Nat} {load : PreviewLoad U}
    (hload : s.loads[l]? = some load) (hended : load.ended = false) {answer : LoadAnswer}
    (hanswer : load.answer = some answer) : (s.finishes l load answer).Invariant http := by
  have hstep : s.decoder.step (.cancel l) = some (s.decoder.cancel l) := rfl
  have hfollows := h.decoder.follows hstep
  obtain ⟨hsound, p₀, hp₀, howned⟩ := h.loads l load hload
  have hl := (List.getElem?_eq_some_iff.1 hload).1
  have hmem : l ∈ (s.decoder.cancel l).cancelled := (mem_cancel h.decoder l l).2 (Or.inr rfl)
  have hloads : ∀ (i : Nat) (load' : PreviewLoad U), i ≠ l → s.loads[i]? = some load' →
      (s.loads.modify l fun load => { load with ended := true, closed := true })[i]? =
        some load' := fun i load' hi hload' => (List.getElem?_modify_ne _ _ hi.symm).trans hload'
  have hloaded : (s.loads.modify l fun load => { load with ended := true, closed := true })[l]? =
      some { load with ended := true, closed := true } :=
    (List.getElem?_modify_eq _ _ _).trans (congrArg _ hload)
  rw [finishes_eq]
  -- The load is ended and its answer shown, where the preview is mounted and its epoch is the
  -- load's; other loads, and other previews, stay as they are but for what the decoder does.
  refine ⟨h.decoder.step hstep, fun i load' hload' => ?_, fun w p _ hp hmounted => ?_,
    fun w p hp i hi => ?_, fun i hi => ?_, ?_⟩
  · have hpreview : ∀ (w : Nat) (p : Preview U), s.previews[w]? = some p → ∃ p',
        (s.previews.modify load.preview (shown load answer))[w]? = some p' ∧ SameHold p p' := by
      intro w p hp
      by_cases hw : load.preview = w
      · subst hw
        exact ⟨_, (List.getElem?_modify_eq _ _ _).trans (congrArg _ hp), sameHold_shown _ _ _⟩
      · exact ⟨p, (List.getElem?_modify_ne _ _ hw).trans hp, rfl, rfl, rfl, rfl, rfl⟩
    rcases DecodeQueue.getElem?_modify_cases hload' with ⟨hi, hold⟩ | ⟨rfl, load₀, hold, rfl⟩
    · obtain ⟨hsound', p, hp, howned'⟩ := h.loads i load' hold
      obtain ⟨p', hp', hsame⟩ := hpreview _ p hp
      exact ⟨hsound'.follows hfollows, p', hp', (howned'.sameHold hsame).cancel h.decoder hi⟩
    · obtain rfl : load = load₀ := Option.some_inj.1 (hload.symm.trans hold)
      obtain ⟨p', hp', hsame⟩ := hpreview _ p₀ hp₀
      have hsound' := hsound.follows hfollows
      have howned' := howned.sameHold hsame
      refine ⟨⟨hsound'.asked, fun _ => ⟨rfl, hmem, ?_⟩, hsound'.finished, hsound'.received,
        hsound'.job, hsound'.image⟩, p', hp', howned'.le, howned'.current, nofun,
        fun _ => ⟨rfl, hmem⟩⟩
      rw [hanswer]
      rfl
  · rcases DecodeQueue.getElem?_modify_cases hp with ⟨hw, hold⟩ | ⟨rfl, p₁, hold, rfl⟩
    · -- The loads of other previews stay as they are.
      refine (h.previews w p nofun hold hmounted).of_last fun i load' hlast =>
        hloads i load' ?_ hlast.get
      rintro rfl
      obtain rfl : load = load' := Option.some_inj.1 (hload.symm.trans hlast.get)
      exact hw hlast.preview.symm
    · obtain rfl : p₀ = p₁ := Option.some_inj.1 (hp₀.symm.trans hold)
      rw [(sameHold_shown load answer p₀).mounted] at hmounted
      by_cases hepoch : load.epoch = p₀.epoch
      · obtain ⟨hsource, herror⟩ :=
          h.shows_nothing hp₀ hmounted ⟨hload, rfl, hepoch⟩ hended
        rw [shown.eq_def, if_pos ⟨hmounted, hepoch⟩]
        cases answer with
        | image j => exact .image j rfl herror l _ ⟨hloaded, rfl, hepoch⟩ rfl hanswer
        | error => exact .failed hsource rfl l _ ⟨hloaded, rfl, hepoch⟩ rfl hanswer
      · rw [shown.eq_def, if_neg fun hlast => hepoch hlast.2]
        refine (h.previews _ p₀ nofun hold hmounted).of_last fun i load' hlast =>
          hloads i load' ?_ hlast.get
        rintro rfl
        obtain rfl : load = load' := Option.some_inj.1 (hload.symm.trans hlast.get)
        exact hepoch hlast.epoch
  · have hhold : ∃ p', s.previews[w]? = some p' ∧ SameHold p' p := by
      rcases DecodeQueue.getElem?_modify_cases hp with ⟨-, hold⟩ | ⟨rfl, p₁, hold, rfl⟩
      · exact ⟨p, hold, rfl, rfl, rfl, rfl, rfl⟩
      · exact ⟨p₁, hold, sameHold_shown _ _ _⟩
    obtain ⟨p', hp', hsame⟩ := hhold
    rw [hsame.client, hsame.decode] at hi
    obtain ⟨load', hload', hpreview⟩ := h.holds w p' hp' i hi
    by_cases hil : i = l
    · subst hil
      obtain rfl : load = load' := Option.some_inj.1 (hload.symm.trans hload')
      exact ⟨_, hloaded, hpreview⟩
    · exact ⟨load', hloads i load' hil hload', hpreview⟩
  · dsimp only
    rw [List.length_modify]
    rcases (mem_cancel h.decoder l i).1 hi with hold | rfl
    · exact h.cancelled i hold
    · exact hl
  · dsimp only
    rw [List.length_modify]
    exact h.decoder.forall_token (P := (· < s.loads.length)) h.tokens hstep fun _ _ => nofun

/-! ## Giving up -/

/-- What holds but for one preview holds if that one shows what it should. -/
theorem InvariantBut.invariant {w : Nat} (h : s.InvariantBut http (some w))
    (hshows : ∀ p, s.previews[w]? = some p → p.mounted = true → s.Shows http w p) :
    s.Invariant http := by
  refine ⟨h.decoder, h.loads, fun v p _ hp hmounted => ?_, h.holds, h.cancelled, h.tokens⟩
  by_cases hv : v = w
  · subst hv
    exact hshows p hp hmounted
  · exact h.previews v p (fun heq => hv (Option.some_inj.1 heq)) hp hmounted

theorem InvariantBut.but {but : Option Nat} (h : s.InvariantBut http none) :
    s.InvariantBut http but :=
  ⟨h.decoder, h.loads, fun w p _ => h.previews w p nofun, h.holds, h.cancelled, h.tokens⟩

/-- The loads once one of them is given up. -/
theorem getElem?_givesUp (p : Preview U) {i : Nat} {load : PreviewLoad U}
    (hload : s.loads[i]? = some load) : (s.givesUp p).loads[i]? =
      some { load with closed := load.closed || decide (p.client = some i) } := by
  have hloads : (s.givesUp p).loads = p.client.elim s.loads fun l =>
      s.loads.modify l fun load => { load with closed := true } := by
    rw [givesUp]
    cases p.client <;> cases p.decode <;> rfl
  rw [hloads]
  cases p.client with
  | none =>
    rw [decide_eq_false nofun, Bool.or_false]
    exact hload
  | some l =>
    rw [Option.elim_some]
    by_cases hl : l = i
    · subst hl
      rw [List.getElem?_modify_eq, hload, decide_eq_true rfl, Bool.or_true]
      rfl
    · rw [List.getElem?_modify_ne _ _ hl, hload,
        decide_eq_false fun heq => hl (Option.some_inj.1 heq), Bool.or_false]

theorem givesUp_previews (p : Preview U) : (s.givesUp p).previews = s.previews := by
  rw [givesUp]
  cases p.client <;> cases p.decode <;> rfl

/-- Giving up a load leaves the number of loads. -/
theorem length_givesUp (p : Preview U) : (s.givesUp p).loads.length = s.loads.length := by
  rw [givesUp]
  cases p.client <;> cases p.decode <;> first | rfl | exact List.length_modify _ _ _

/-- The decoders once a token is cancelled, or none. -/
theorem givesUp_decoder (hdecoder : s.decoder.Invariant) (p : Preview U) {P : Nat → Prop}
    (hP : ∀ (j : Nat) (job : DecodeJob), s.decoder.jobs[j]? = some job → P job.token) :
    (s.givesUp p).decoder.Invariant ∧ s.decoder.Follows (s.givesUp p).decoder ∧
      (∀ t, t ∈ (s.givesUp p).decoder.cancelled ↔
        t ∈ s.decoder.cancelled ∨ p.decode = some t) ∧
      ∀ (j : Nat) (job : DecodeJob), (s.givesUp p).decoder.jobs[j]? = some job → P job.token := by
  have heq : (s.givesUp p).decoder = p.decode.elim s.decoder s.decoder.cancel := by
    rw [givesUp]
    cases p.client <;> cases p.decode <;> rfl
  rw [heq]
  cases p.decode with
  | none => exact ⟨hdecoder, .refl _, fun t => (or_iff_left nofun).symm, hP⟩
  | some l =>
    have hstep : s.decoder.step (.cancel l) = some (s.decoder.cancel l) := rfl
    refine ⟨hdecoder.step hstep, hdecoder.follows hstep, fun t => ?_,
      hdecoder.forall_token hP hstep fun _ _ => nofun⟩
    rw [Option.elim_some, mem_cancel hdecoder, Option.some_inj, eq_comm (a := l)]

/-- A load is as sound once closed. -/
theorem Sound.closes {decoder : DecodeQueue} {l : Nat} {load : PreviewLoad U}
    (h : Sound http decoder l load) (b : Bool) :
    Sound http decoder l { load with closed := load.closed || b } := by
  refine ⟨h.asked, fun hended => ?_, h.finished, h.received, h.job, h.image⟩
  obtain ⟨hclosed, hrest⟩ := h.ended hended
  exact ⟨by rw [hclosed, Bool.true_or], hrest⟩

/-- A preview begins anew: what it waited for is given up. -/
theorem InvariantBut.renews {w : Nat} {p q : Preview U} (h : s.InvariantBut http (some w))
    (hp : s.previews[w]? = some p) (hepoch : q.epoch = p.epoch + 1)
    (hholds : ∀ l, q.client = some l ∨ q.decode = some l → p.client = some l ∨ p.decode = some l) :
    ({ s.givesUp p with previews := s.previews.set w q } : Previews U).InvariantBut http (some w) ∧
      ∀ (l : Nat) (load : PreviewLoad U), (s.givesUp p).loads[l]? = some load →
        load.preview = w → load.epoch < q.epoch := by
  obtain ⟨hdecoder, hfollows, hcancelled, htokens⟩ :=
    givesUp_decoder (P := (· < s.loads.length)) h.decoder p h.tokens
  have hw := (List.getElem?_eq_some_iff.1 hp).1
  have hback : ∀ (i : Nat) (load' : PreviewLoad U), (s.givesUp p).loads[i]? = some load' →
      ∃ load, s.loads[i]? = some load ∧
        load' = { load with closed := load.closed || decide (p.client = some i) } := by
    intro i load' hload'
    have hi : i < s.loads.length := length_givesUp (s := s) p ▸ (List.getElem?_eq_some_iff.1 hload').1
    have hload : s.loads[i]? = some s.loads[i] := List.getElem?_eq_getElem hi
    exact ⟨_, hload, Option.some_inj.1 (hload'.symm.trans (getElem?_givesUp p hload))⟩
  have hpreview : ∀ (v : Nat) (p₁ : Preview U), (s.previews.set w q)[v]? = some p₁ →
      (v ≠ w ∧ s.previews[v]? = some p₁) ∨ (v = w ∧ p₁ = q) := by
    intro v p₁ hp₁
    by_cases hv : w = v
    · subst hv
      rw [List.getElem?_set_self hw] at hp₁
      exact Or.inr ⟨rfl, (Option.some_inj.1 hp₁).symm⟩
    · rw [List.getElem?_set_ne hv] at hp₁
      exact Or.inl ⟨Ne.symm hv, hp₁⟩
  -- Its own loads are given up, and those of other previews stay.
  have hown : ∀ (i : Nat) (load : PreviewLoad U), s.loads[i]? = some load → load.preview = w →
      load.epoch ≤ p.epoch ∧ (load.closed || decide (p.client = some i)) = true ∧
        i ∈ (s.givesUp p).decoder.cancelled := by
    rintro i load hload rfl
    obtain ⟨-, p₁, hp₁, howned⟩ := h.loads i load hload
    obtain rfl : p = p₁ := Option.some_inj.1 (hp.symm.trans hp₁)
    refine ⟨howned.le, ?_⟩
    rcases howned.le.eq_or_lt with heq | hlt
    · obtain ⟨-, hclient, hdecode, -⟩ := howned.current heq
      exact ⟨by rw [decide_eq_true hclient, Bool.or_true], (hcancelled i).2 (Or.inr hdecode)⟩
    · obtain ⟨hclosed, hmem⟩ := howned.given hlt
      exact ⟨by rw [hclosed, Bool.true_or], (hcancelled i).2 (Or.inl hmem)⟩
  have hother : ∀ (i : Nat) (load : PreviewLoad U), s.loads[i]? = some load → load.preview ≠ w →
      (load.closed || decide (p.client = some i)) = load.closed ∧ p.decode ≠ some i := by
    intro i load hload hne
    have hnot : ¬(p.client = some i ∨ p.decode = some i) := by
      intro hi
      obtain ⟨load', hload', hpreview'⟩ := h.holds w p hp i hi
      obtain rfl : load = load' := Option.some_inj.1 (hload.symm.trans hload')
      exact hne hpreview'
    rw [not_or] at hnot
    exact ⟨by rw [decide_eq_false hnot.1, Bool.or_false], hnot.2⟩
  refine ⟨⟨hdecoder, fun i load' hload' => ?_, fun v p₁ hv hp₁ hmounted => ?_,
    fun v p₁ hp₁ i hi => ?_, fun t ht => ?_, fun j job hjob => ?_⟩, fun i load' hload' hw' => ?_⟩
  · obtain ⟨load, hload, rfl⟩ := hback i load' hload'
    obtain ⟨hsound, p₁, hp₁, howned⟩ := h.loads i load hload
    refine ⟨(hsound.follows hfollows).closes _, ?_⟩
    by_cases hw' : load.preview = w
    · obtain ⟨hle, hclosed, hmem⟩ := hown i load hload hw'
      have hlt : load.epoch < q.epoch := hepoch ▸ Nat.lt_succ_of_le hle
      refine ⟨q, hw' ▸ List.getElem?_set_self (hw' ▸ hw), hlt.le, fun heq => absurd heq hlt.ne,
        fun heq => absurd heq hlt.ne, fun _ => ⟨hclosed, hmem⟩⟩
    · obtain ⟨hsame, hne⟩ := hother i load hload hw'
      refine ⟨p₁, (List.getElem?_set_ne (Ne.symm hw')).trans hp₁, howned.le, howned.current,
        fun heq hended => ?_, fun hlt => ?_⟩
      · obtain ⟨hopen, hnot⟩ := howned.waits heq hended
        exact ⟨hsame.trans hopen, fun hmem => ((hcancelled i).1 hmem).elim hnot hne⟩
      · obtain ⟨hclosed, hmem⟩ := howned.given hlt
        exact ⟨hsame.trans hclosed, (hcancelled i).2 (Or.inl hmem)⟩
  · obtain ⟨hne, hp₁⟩ := (hpreview v p₁ hp₁).resolve_right fun heq => hv (congrArg some heq.1)
    refine (h.previews v p₁ hv hp₁ hmounted).of_last fun i load hlast => ?_
    have hsame := (hother i load hlast.get (hlast.preview ▸ hne)).1
    refine (getElem?_givesUp p hlast.get).trans ?_
    rw [hsame]
  · have hold : ∃ load, s.loads[i]? = some load ∧ load.preview = v := by
      rcases hpreview v p₁ hp₁ with ⟨-, hp₁⟩ | ⟨rfl, rfl⟩
      · exact h.holds v p₁ hp₁ i hi
      · exact h.holds v p hp i (hholds i hi)
    obtain ⟨load, hload, hpreview'⟩ := hold
    exact ⟨_, getElem?_givesUp p hload, hpreview'⟩
  · dsimp only
    rw [length_givesUp]
    rcases (hcancelled t).1 ht with hold | hdecode
    · exact h.cancelled t hold
    · obtain ⟨load, hload, -⟩ := h.holds w p hp t (Or.inr hdecode)
      exact (List.getElem?_eq_some_iff.1 hload).1
  · dsimp only
    rw [length_givesUp]
    exact htokens j job hjob
  · obtain ⟨load, hload, rfl⟩ := hback i load' hload'
    rw [hepoch]
    exact Nat.lt_succ_of_le (hown i load hload hw').1

/-- A preview that begins anew asks for its uri. -/
theorem InvariantBut.asks {w : Nat} {p : Preview U} {uri : U} (h : s.InvariantBut http (some w))
    (hp : s.previews[w]? = some p) (hmounted : p.mounted = true) (huri : p.uri = some uri)
    (hhttp : http uri = true) (hsource : p.source = none) (herror : p.error = none)
    (hpast : ∀ (l : Nat) (load : PreviewLoad U), s.loads[l]? = some load → load.preview = w →
      load.epoch < p.epoch) :
    ({ s with
      previews := s.previews.set w
        { p with client := some s.loads.length, decode := some s.loads.length }
      loads := s.loads ++ [{ preview := w, epoch := p.epoch, uri := uri }] } :
      Previews U).Invariant http := by
  have hw := (List.getElem?_eq_some_iff.1 hp).1
  have hself : ∀ q : Preview U, (s.previews.set w q)[w]? = some q := fun q =>
    List.getElem?_set_self hw
  have hkeep : ∀ (v : Nat) (q : Preview U), v ≠ w → (s.previews.set w q)[v]? = s.previews[v]? :=
    fun v q hv => List.getElem?_set_ne (Ne.symm hv)
  have hnew : (s.loads ++ [({ preview := w, epoch := p.epoch, uri := uri } : PreviewLoad U)])[
      s.loads.length]? = some { preview := w, epoch := p.epoch, uri := uri } :=
    List.getElem?_concat_length
  -- The new load stands behind all others, and is the only one of the preview's epoch.
  refine InvariantBut.invariant (w := w) ⟨h.decoder, fun i load hload => ?_,
    fun v q hv hq hmounted => ?_, fun v q hq i hi => ?_, fun t ht => ?_, fun j job hjob => ?_⟩
    fun q hq _ => ?_
  · rcases DecodeQueue.getElem?_push.1 hload with hold | ⟨rfl, rfl⟩
    · obtain ⟨hsound, q, hq, howned⟩ := h.loads i load hold
      refine ⟨hsound, ?_⟩
      by_cases hv : load.preview = w
      · have hlt := hpast i load hold hv
        rw [hv] at hq
        obtain rfl : p = q := Option.some_inj.1 (hp.symm.trans hq)
        refine ⟨{ p with client := some s.loads.length, decode := some s.loads.length }, ?_,
          howned.le, fun heq => absurd heq hlt.ne, fun heq => absurd heq hlt.ne, howned.given⟩
        rw [hv]
        exact hself _
      · exact ⟨q, (hkeep _ _ hv).trans hq, howned⟩
    · exact ⟨⟨hhttp, nofun, nofun, nofun, nofun, nofun⟩, _, hself _, le_rfl,
        fun _ => ⟨hmounted, rfl, rfl, huri⟩,
        fun _ _ => ⟨rfl, fun hmem => (h.cancelled _ hmem).false⟩, fun hlt => absurd hlt (lt_irrefl _)⟩
  · have hne : v ≠ w := fun heq => hv (congrArg some heq)
    dsimp only at hq
    rw [hkeep v _ hne] at hq
    exact (h.previews v q hv hq hmounted).of_last fun i load hlast =>
      DecodeQueue.getElem?_push.2 (Or.inl hlast.get)
  · dsimp only at hq
    by_cases hv : v = w
    · subst hv
      rw [hself] at hq
      obtain rfl := Option.some_inj.1 hq
      have hi : s.loads.length = i := hi.elim Option.some_inj.1 Option.some_inj.1
      exact ⟨_, hi ▸ hnew, rfl⟩
    · rw [hkeep v _ hv] at hq
      obtain ⟨load, hload, hpreview⟩ := h.holds v q hq i hi
      exact ⟨load, DecodeQueue.getElem?_push.2 (Or.inl hload), hpreview⟩
  · rw [List.length_append]
    exact Nat.lt_succ_of_lt (h.cancelled t ht)
  · rw [List.length_append]
    exact Nat.lt_succ_of_lt (h.tokens j job hjob)
  · dsimp only at hq
    rw [hself] at hq
    obtain rfl := Option.some_inj.1 hq
    exact .loading hsource herror _ _ ⟨hnew, rfl, rfl⟩ rfl

/-- A preview that is mounted loads, for what its widget holds now. -/
theorem InvariantBut.load {w : Nat} {p p₀ : Preview U} (h : s.InvariantBut http (some w))
    (hp : s.previews[w]? = some p₀) (hclient : p.client = p₀.client)
    (hdecode : p.decode = p₀.decode) (hepoch : p.epoch = p₀.epoch) (hmounted : p.mounted = true) :
    (s.load http w p).Invariant http := by
  have hgives : s.givesUp p = s.givesUp p₀ := by
    rw [givesUp, givesUp, hclient, hdecode]
  have hw := (List.getElem?_eq_some_iff.1 hp).1
  have hset : ∀ q : Preview U, (s.previews.set w q)[w]? = some q := fun q => List.getElem?_set_self hw
  have hnext : p.epoch + 1 = p₀.epoch + 1 := congrArg (· + 1) hepoch
  have hholds : ∀ l, p.client = some l ∨ none = some l → p₀.client = some l ∨ p₀.decode = some l :=
    fun l hl => Or.inl (hclient ▸ hl.resolve_right nofun)
  rw [Previews.load, hgives]
  dsimp only
  split
  · rename_i huri
    obtain ⟨hrenewed, -⟩ := h.renews (q := { p with
      epoch := p.epoch + 1, decode := none, source := none, error := some .unavailable })
      hp hnext hholds
    rw [givesUp_previews]
    refine hrenewed.invariant fun q hq _ => ?_
    obtain rfl := Option.some_inj.1 ((hset _).symm.trans hq)
    exact .unavailable rfl rfl huri
  · rename_i uri huri
    obtain ⟨huri, hhttp⟩ := Option.filter_eq_some_iff.1 huri
    obtain ⟨hrenewed, hpast⟩ := h.renews (q := { p with
      epoch := p.epoch + 1, decode := none, source := none, error := none }) hp hnext hholds
    have hasks := hrenewed.asks (hset _) hmounted huri hhttp rfl rfl hpast
    dsimp only at hasks
    rw [List.set_set] at hasks
    rw [givesUp_previews]
    exact hasks

/-- A new preview is the one that the invariant leaves out. -/
theorem Invariant.mount (h : s.Invariant http) {p : Preview U} (hclient : p.client = none)
    (hdecode : p.decode = none) :
    ({ s with previews := s.previews ++ [p] } : Previews U).InvariantBut http
      (some s.previews.length) := by
  have hold : ∀ (w : Nat) (q : Preview U), s.previews[w]? = some q →
      (s.previews ++ [p])[w]? = some q := fun w q hq => DecodeQueue.getElem?_push.2 (Or.inl hq)
  refine ⟨h.decoder, fun l load hload => ?_, fun w q hw hq hmounted => ?_, fun w q hq l hl => ?_,
    h.cancelled, h.tokens⟩
  · obtain ⟨hsound, q, hq, howned⟩ := h.loads l load hload
    exact ⟨hsound, q, hold _ q hq, howned⟩
  · rcases DecodeQueue.getElem?_push.1 hq with hq | ⟨rfl, -⟩
    · exact (h.previews w q nofun hq hmounted).of_last fun _ _ hlast => hlast.get
    · exact absurd rfl hw
  · rcases DecodeQueue.getElem?_push.1 hq with hq | ⟨-, rfl⟩
    · exact h.holds w q hq l hl
    · rw [hclient, hdecode] at hl
      exact hl.elim nofun nofun

/-- Every event keeps the invariant, one case for each. -/
theorem Invariant.step [DecidableEq U] (h : s.Invariant http) {e : Event U} {s' : Previews U}
    (hstep : s.step http e = some s') : s'.Invariant http := by
  cases e with
  | mount uri =>
    obtain rfl := Option.some_inj.1 hstep
    exact (h.mount rfl rfl).load List.getElem?_concat_length rfl rfl rfl rfl
  | update w uri =>
    rw [Previews.step.eq_def] at hstep
    dsimp only at hstep
    split at hstep
    · cases hstep
    · rename_i p hp
      split_ifs at hstep with hmounted huri
      · obtain rfl := Option.some_inj.1 hstep
        exact h
      · obtain rfl := Option.some_inj.1 hstep
        rw [Bool.not_eq_true, Bool.not_eq_false'] at hmounted
        exact h.but.load hp rfl rfl rfl hmounted
  | unmount w =>
    rw [Previews.step.eq_def] at hstep
    dsimp only at hstep
    split at hstep
    · cases hstep
    · rename_i p hp
      split_ifs at hstep with hmounted
      obtain rfl := Option.some_inj.1 hstep
      have hrenewed := (h.but.renews (q := { p with mounted := false, epoch := p.epoch + 1 }) hp
        rfl fun _ hl => hl).1
      refine hrenewed.invariant fun q hq hmounted => ?_
      obtain rfl := Option.some_inj.1
        ((List.getElem?_set_self (List.getElem?_eq_some_iff.1 hp).1).symm.trans hq)
      cases hmounted
  | responds l ok contentLength =>
    rw [Previews.step.eq_def] at hstep
    dsimp only at hstep
    split at hstep
    · rename_i hload
      split_ifs at hstep
      · obtain rfl := Option.some_inj.1 hstep
        exact h.answers_error hload
      · obtain rfl := Option.some_inj.1 hstep
        refine h.waits hload nofun (fun bytes hbytes => ?_) nofun
        rw [← LoadStage.receiving.inj hbytes]
        exact Nat.zero_le _
    · cases hstep
  | throws l =>
    rw [Previews.step.eq_def] at hstep
    dsimp only at hstep
    split at hstep
    · rename_i hload
      obtain rfl := Option.some_inj.1 hstep
      exact h.answers_error hload
    · rename_i hload
      obtain rfl := Option.some_inj.1 hstep
      exact h.answers_error hload
    · cases hstep
  | chunk l bytes =>
    rw [Previews.step.eq_def] at hstep
    dsimp only at hstep
    split at hstep
    · rename_i hload
      obtain rfl := Option.some_inj.1 hstep
      exact h.receives hload _ bytes
    · cases hstep
  | closes l =>
    rw [Previews.step.eq_def] at hstep
    dsimp only at hstep
    split at hstep
    · rename_i hload
      obtain rfl := Option.some_inj.1 hstep
      exact h.decodes hload _
    · cases hstep
  | settles j o =>
    obtain ⟨decoder, hdecoder, rfl⟩ := Option.map_eq_some_iff.1 hstep
    exact h.withDecoder hdecoder (fun _ => nofun) fun _ _ => nofun
  | decoded l =>
    rw [Previews.step.eq_def] at hstep
    dsimp only at hstep
    split at hstep
    · rename_i hload
      split at hstep
      · cases hstep
      · rename_i o hdone
        obtain rfl := Option.some_inj.1 hstep
        obtain ⟨job, hjob, hdone⟩ := Option.bind_eq_some_iff.1 hdone
        obtain ⟨job', hjob', htoken⟩ := (h.loads l _ hload).1.job _ rfl
        obtain rfl : job = job' := Option.some_inj.1 (hjob.symm.trans hjob')
        refine h.answers hload fun j' hj' => ?_
        split_ifs at hj' with ho
        obtain rfl := LoadAnswer.image.inj hj'
        exact ⟨job, hjob, htoken, ho ▸ hdone⟩
    · cases hstep
  | times l =>
    rw [Previews.step.eq_def] at hstep
    dsimp only at hstep
    split at hstep
    · rename_i hload
      obtain rfl := Option.some_inj.1 hstep
      have hsound := (h.loads l _ hload).1
      -- Of an answer that comes later nothing is seen.
      refine h.goes_at hload rfl (fun hended => ?_) ⟨hsound.asked, fun hended => ?_,
        fun _ => rfl, hsound.received, hsound.job, nofun⟩
      · obtain ⟨-, -, hanswered⟩ := hsound.ended hended
        cases hanswered
      · obtain ⟨-, -, hanswered⟩ := hsound.ended hended
        cases hanswered
    · cases hstep
  | ends l =>
    rw [Previews.step.eq_def] at hstep
    dsimp only at hstep
    split at hstep
    · rename_i load hload
      split_ifs at hstep with hended
      split at hstep
      · cases hstep
      · rename_i answer hanswer
        obtain rfl := Option.some_inj.1 hstep
        exact h.finishes hload (Bool.not_eq_true _ ▸ hended) hanswer
    · cases hstep

/-! ## Runs -/

/-- Previews that the framework, the network, the timers and the decoders can bring about. -/
def Reached {U : Type} [DecidableEq U] (http : U → Bool) (s : Previews U) : Prop :=
  ∃ events, Runs.run (step http) {} events = some s

/-- What is reached has the invariant. -/
theorem Reached.invariant [DecidableEq U] (h : s.Reached http) : s.Invariant http := by
  obtain ⟨events, hrun⟩ := h
  exact Runs.run_invariant (fun _ _ _ h hstep => h.step hstep) hrun invariant_empty

/-- A preview that is mounted shows why it asks for nothing, that it loads, that its last load failed,
    or the pixels that this load was answered with: of its own job, and of the uri that the widget
    holds now. -/
theorem shows_current [DecidableEq U] (h : s.Reached http) {w : Nat} {p : Preview U}
    (hp : s.previews[w]? = some p) (hmounted : p.mounted = true) :
    s.Shows http w p ∧
      (∀ l load, s.IsLast w p l load → p.uri = some load.uri) ∧
      ∀ j, p.source = some j → ∃ l load job, s.IsLast w p l load ∧
        s.decoder.jobs[j]? = some job ∧ job.token = l ∧ job.done = some .pixels ∧
        job.bytes ≤ maxBytes := by
  have hs := h.invariant
  have hshows := hs.previews w p nofun hp hmounted
  refine ⟨hshows, fun l load hlast => ?_, fun j hj => ?_⟩
  · obtain ⟨-, p', hp', howned⟩ := hs.loads l load hlast.get
    obtain rfl : p = p' := Option.some_inj.1 (hp.symm.trans (hlast.preview ▸ hp'))
    exact (howned.current hlast.epoch).2.2.2
  · cases hshows with
    | unavailable hsource => exact absurd (hsource.symm.trans hj) nofun
    | loading hsource => exact absurd (hsource.symm.trans hj) nofun
    | failed hsource => exact absurd (hsource.symm.trans hj) nofun
    | image j' hsource _ l load hlast _ hanswer =>
      obtain rfl : j' = j := Option.some_inj.1 (hsource.symm.trans hj)
      obtain ⟨job, hjob, htoken, hdone⟩ := (hs.loads l load hlast.get).1.image j' hanswer
      exact ⟨l, load, job, hlast, hjob, htoken, hdone,
        hs.decoder.small job (List.mem_of_getElem? hjob)⟩

/-- A load is waited for: by a preview that is mounted, and has not loaded again. -/
def Waited (s : Previews U) (load : PreviewLoad U) : Prop :=
  load.ended = false ∧
    ∃ p, s.previews[load.preview]? = some p ∧ p.mounted = true ∧ load.epoch = p.epoch

/-- What is waited for keeps its client and its token. What is not is given up: its client is closed,
    its token is cancelled, and no job of it waits for a decoder. -/
theorem releases [DecidableEq U] (h : s.Reached http) {l : Nat} {load : PreviewLoad U}
    (hload : s.loads[l]? = some load) :
    (load.closed = true ↔ ¬s.Waited load) ∧ (l ∈ s.decoder.cancelled ↔ ¬s.Waited load) ∧
      (¬s.Waited load → ∀ j ∈ s.decoder.queue, ∀ job : DecodeJob,
        s.decoder.jobs[j]? = some job → job.token ≠ l) := by
  have hs := h.invariant
  obtain ⟨hsound, p, hp, howned⟩ := hs.loads l load hload
  have hgiven : ¬s.Waited load → load.closed = true ∧ l ∈ s.decoder.cancelled := by
    intro hnot
    rcases howned.le.eq_or_lt with heq | hlt
    · have hended : load.ended = true := by
        by_contra hopen
        exact hnot ⟨Bool.not_eq_true _ ▸ hopen, p, hp, (howned.current heq).1, heq⟩
      obtain ⟨hclosed, hcancelled, -⟩ := hsound.ended hended
      exact ⟨hclosed, hcancelled⟩
    · exact howned.given hlt
  have hwaited : s.Waited load → load.closed = false ∧ l ∉ s.decoder.cancelled := by
    rintro ⟨hended, p', hp', -, hepoch⟩
    obtain rfl : p = p' := Option.some_inj.1 (hp.symm.trans hp')
    exact howned.waits hepoch hended
  refine ⟨⟨fun hclosed hw => ?_, fun hnot => (hgiven hnot).1⟩,
    ⟨fun hmem hw => (hwaited hw).2 hmem, fun hnot => (hgiven hnot).2⟩,
    fun hnot j hj job hjob htoken => ?_⟩
  · rw [(hwaited hw).1] at hclosed
    cases hclosed
  · exact hs.decoder.waiting j hj job hjob (htoken ▸ (hgiven hnot).2)

/-- A preview whose uri changes while the first image is decoded, and which then shows the second. -/
def changed : List (Event Nat) :=
  [.mount (some 3), .responds 0 true none, .chunk 0 100, .closes 0, .update 0 (some 4),
    .responds 1 true (some 60), .chunk 1 60, .closes 1, .settles 0 .pixels, .decoded 0, .ends 0,
    .settles 1 .pixels, .decoded 1, .ends 1]

def changedPreviews : Previews Nat := (Runs.run (step fun _ => true) {} changed).getD {}

theorem reached_changed : changedPreviews.Reached fun _ => true := ⟨changed, by decide⟩

/-- A preview whose source was changed shows the new one. -/
theorem shows_current_changed : ∃ p, changedPreviews.previews[0]? = some p ∧ p.source = some 1 ∧
    changedPreviews.Shows (fun _ => true) 0 p := by
  have hp : ∃ p, changedPreviews.previews[0]? = some p ∧ p.mounted = true ∧ p.source = some 1 :=
    ⟨⟨some 4, true, 2, some 1, some 1, some 1, none⟩, by decide⟩
  obtain ⟨p, hp, hmounted, hsource⟩ := hp
  exact ⟨p, hp, hsource, (shows_current reached_changed hp hmounted).1⟩

/-- Its first load is closed. -/
theorem releases_changed : ∃ load, changedPreviews.loads[0]? = some load ∧
    (load.closed = true ↔ ¬changedPreviews.Waited load) := by
  have hload : ∃ load, changedPreviews.loads[0]? = some load := ⟨_, rfl⟩
  obtain ⟨load, hload⟩ := hload
  exact ⟨load, hload, (releases reached_changed hload).1⟩

end Previews

end Flark
