import Flark.Parse.WasmBackend

/-!
# The native transport

`FfiParseBackend` of `backend_ffi.dart` and `ParserMemory` of `parser_memory.dart`: the parsers of a
process, each with one block of the C allocator for its cell and its input. A parser that is dropped
is collected at some time, and the finalizer frees what is attached to it.

The model is a machine over the calls of hosts and of the collector, in any order. Where the
allocators put what they give out is told from outside.

* `FfiBackends.Invariant`: what every event keeps;
* `FfiBackends.run_owned`: one block is live, and attached, for each parser that needs one;
* `FfiBackends.run_replies`, `FfiBackends.transports_agree`: a parser answers for its own source, as
  the web transport does.
-/

namespace Flark

open Native HostText

/-- A block of the C allocator: the cell, and what was written into the input from its beginning
    on. -/
structure NativeMemory where
  modelAddress : Nat := 0
  modelLength : Nat := 0
  input : List UInt8 := []
  deriving DecidableEq, Repr

/-- A parser, with its `ParserMemory`. -/
structure FfiBackend where
  /-- `_block`, unless it is null. -/
  block : Option Nat := none
  inputCapacity : Nat := 0
  disposed : Bool := false
  /-- It was dropped, and is no more. -/
  collected : Bool := false
  deriving DecidableEq, Repr

structure FfiBackends where
  parsers : List FfiBackend := []
  /-- What `malloc` has given out. -/
  blocks : Blocks NativeMemory := .empty
  /-- The models that `flark_parse` has handed back. -/
  models : Blocks (List UInt32) := .empty
  /-- What the finalizer is to free, and with which parser. -/
  attached : List (Nat × Nat) := []
  attachedBlocks : Int := 0
  /-- An allocator was given back what it had not given out, or a block was written past its end. -/
  misused : Bool := false

namespace FfiBackends

variable (s : FfiBackends)

def cellBytes : Nat := 16

def maxInputBytes : Nat := 0xFFFFFFFF

def initialInputCapacity : Nat := 4096

/-- `ParserMemory.inputCapacityFor`. -/
def inputCapacityFor (codeUnits : Nat) : Option Nat :=
  let worstCase := codeUnits * 3
  if worstCase > maxInputBytes then none else some (min (worstCase * 2) maxInputBytes)

/-- `malloc.free`. -/
def mallocFree (a : Nat) : FfiBackends :=
  if (s.blocks a).isSome then { s with blocks := s.blocks.drop a } else { s with misused := true }

/-- `_free` of the memory of parser `i`. -/
def freeBlock (i a : Nat) : FfiBackends :=
  mallocFree { s with
    attached := s.attached.filter fun k => k.1 ≠ i
    attachedBlocks := s.attachedBlocks - 1 } a

/-- `_replace`: nothing where the allocation throws. -/
def replaceBlock (i : Nat) (p : FfiBackend) (inputCapacity : Nat) (at_ : Option Nat) :
    Option FfiBackends :=
  match at_.filter fun a => (s.blocks a).isNone with
  | none => none
  | some a =>
    let s := { s with blocks := s.blocks.alloc a (cellBytes + inputCapacity) {} }
    let s := p.block.elim s (s.freeBlock i)
    some { s with
      parsers := s.parsers.set i { p with block := some a, inputCapacity := inputCapacity }
      attached := s.attached ++ [(i, a)]
      attachedBlocks := s.attachedBlocks + 1 }

/-- `FfiParseBackend._`. -/
def create (host : Host) (at_ : Option Nat) : FfiBackends :=
  if host.version ≠ RenderModelSchema.version then s
  else
    let p : FfiBackend := {}
    (replaceBlock { s with parsers := s.parsers ++ [p] } s.parsers.length p initialInputCapacity
      at_).getD s

/-- The part of `parse` that runs over memory that is long enough. -/
def parseInto (host : Host) (p : FfiBackend) (source : Text) (model : Nat) :
    Except Unwound (List UInt32) × FfiBackends :=
  match p.block.bind fun a => (s.blocks a).map fun k => (a, k) with
  | none => (.error (.thrown "undefined behaviour"), { s with misused := true })
  | some (a, k) =>
    let (bytes, thrown) := encodeUtf8 source
    let input := bytes ++ k.content.input.drop bytes.length
    -- The encoder writes behind the cell, and is to stay in the block.
    let s := if cellBytes + bytes.length ≤ k.length then s else { s with misused := true }
    let s := { s with blocks := s.blocks.write a fun m => { m with input := input } }
    match thrown with
    | some e => (.error (.parse e), s)
    | none =>
      -- The cell is cleared, so that a failing call leaves nothing to free.
      let s := { s with blocks := s.blocks.write a fun m =>
        { m with modelAddress := 0, modelLength := 0 } }
      match flarkParse host.extract (input.take bytes.length) with
      | .error rc => (.error (.parse (.fromCode rc)), s)
      | .ok ws =>
        let s := { s with
          models := s.models.alloc model ws.length ws
          blocks := s.blocks.write a fun m =>
            { m with modelAddress := model, modelLength := 4 * ws.length } }
        -- What the cell says is copied and freed.
        match s.blocks a with
        | none => (.error (.thrown "undefined behaviour"), { s with misused := true })
        | some k =>
          let copy := (s.models k.content.modelAddress).map fun k' =>
            k'.content.take (k.content.modelLength / 4)
          match copy, s.models.free k.content.modelAddress (wordsOf k.content.modelLength) with
          | some ws, some models => (.ok ws, { s with models := models })
          | _, _ => (.error (.thrown "undefined behaviour"), { s with misused := true })

/-- `parse`. -/
def parse (host : Host) (i : Nat) (p : FfiBackend) (source : Text) (grown : Option Nat)
    (model : Nat) : Except Unwound (List UInt32) × FfiBackends :=
  if p.disposed then (.error (.state "FfiParseBackend used after dispose"), s)
  -- Three bytes a unit are enough for any text.
  else if source.length * 3 > p.inputCapacity then
    match inputCapacityFor source.length with
    | none => (.error (.parse ⟨ParseException.invalidHostTextCode, "a source of " ++
        toString source.length ++ " UTF-16 code units can exceed the parser input limit of " ++
        toString maxInputBytes ++ " bytes"⟩), s)
    | some capacity =>
      match s.replaceBlock i p capacity grown with
      | none => (.error (.thrown "Could not allocate"), s)
      | some s => s.parseInto host { p with block := grown, inputCapacity := capacity } source model
  else s.parseInto host p source model

/-- `dispose`, with `release`. -/
def dispose (i : Nat) (p : FfiBackend) : FfiBackends :=
  if p.disposed then s
  else
    let s := p.block.elim s (s.freeBlock i)
    { s with parsers :=
      s.parsers.set i { p with disposed := true, block := none, inputCapacity := 0 } }

/-- The parser is collected, and the finalizer frees what is attached. -/
def collect (i : Nat) (p : FfiBackend) : FfiBackends :=
  let gone := s.attached.filter fun k => k.1 = i
  let s := gone.foldl (fun s k => s.mallocFree k.2) s
  { s with
    parsers := s.parsers.set i { p with collected := true }
    attached := s.attached.filter fun k => k.1 ≠ i }

inductive Event
  | create (at_ : Option Nat)
  | parse (i : Nat) (source : Text) (grown : Option Nat) (model : Nat)
  | dispose (i : Nat)
  | collect (i : Nat)

/-- The parser that a host still holds. -/
def parser? (i : Nat) : Option FfiBackend := (s.parsers[i]?).filter fun p => !p.collected

/-- The parsers after an event. The library puts a model where it has none. -/
def step (host : Host) (s : FfiBackends) : Event → Option FfiBackends
  | .create at_ => some (s.create host at_)
  | .parse i source grown model => (s.parser? i).bind fun p =>
    if (s.models model).isSome then none else some (s.parse host i p source grown model).2
  | .dispose i => (s.parser? i).map fun p => s.dispose i p
  | .collect i => (s.parser? i).map fun p => s.collect i p

/-! ## What every event keeps -/

/-- Parser `i` has its block at this address, and was not collected. -/
def Owns (s : FfiBackends) (i a : Nat) : Prop :=
  ∃ p : FfiBackend, s.parsers[i]? = some p ∧ p.collected = false ∧ p.block = some a

/-- The parsers that were not disposed, collected ones among them. -/
def openCount (parsers : List FfiBackend) : Nat := parsers.countP fun p => !p.disposed

/-- What holds of a process, also in the middle of an event. -/
structure Base : Prop where
  unused : s.misused = false
  /-- No model outlives the call that copied it. -/
  models : s.models.Holds []
  /-- The blocks are those of the parsers, one for each. -/
  blocks : ∀ a, (s.blocks a).isSome ↔ ∃ i, s.Owns i a
  own : ∀ i j a, s.Owns i a → s.Owns j a → i = j
  sized : ∀ (i : Nat) (p : FfiBackend) (a : Nat), s.parsers[i]? = some p → p.collected = false →
    p.block = some a → ∃ x, s.blocks a = some ⟨cellBytes + p.inputCapacity, x⟩
  /-- Each of them is attached, once. -/
  attached : ∀ i a, (i, a) ∈ s.attached ↔ s.Owns i a
  nodup : s.attached.Nodup

/-- What holds of a process after every event. -/
structure Invariant : Prop extends s.Base where
  /-- A parser has a block until it is disposed. -/
  held : ∀ (i : Nat) (p : FfiBackend), s.parsers[i]? = some p →
    (p.block.isSome ↔ p.disposed = false)
  count : s.attachedBlocks = openCount s.parsers

variable {s}

/-- A parser that was not collected owns its block. -/
theorem owns_iff {i a : Nat} {p : FfiBackend} (hp : s.parsers[i]? = some p)
    (hlive : p.collected = false) : s.Owns i a ↔ p.block = some a := by
  constructor
  · rintro ⟨p', hp', -, ha⟩
    obtain rfl : p = p' := Option.some_inj.1 (hp.symm.trans hp')
    exact ha
  · exact fun ha => ⟨p, hp, hlive, ha⟩

/-- What a change of one parser does to what the parsers own. -/
theorem owns_set {i j a : Nat} {p p' : FfiBackend} {s' : FfiBackends} (hp : s.parsers[i]? = some p)
    (hs' : s'.parsers = s.parsers.set i p') :
    s'.Owns j a ↔ (j = i ∧ p'.collected = false ∧ p'.block = some a) ∨ j ≠ i ∧ s.Owns j a := by
  have hi := (List.getElem?_eq_some_iff.1 hp).1
  by_cases hj : j = i
  · subst hj
    rw [Owns, hs', List.getElem?_set_self hi]
    constructor
    · rintro ⟨q, hq, hlive, ha⟩
      obtain rfl := Option.some_inj.1 hq
      exact Or.inl ⟨rfl, hlive, ha⟩
    · rintro (⟨-, hlive, ha⟩ | ⟨hne, -⟩)
      · exact ⟨p', rfl, hlive, ha⟩
      · exact absurd rfl hne
  · rw [Owns, hs', List.getElem?_set_ne (Ne.symm hj), ← Owns]
    exact ⟨fun h => Or.inr ⟨hj, h⟩, fun h => h.elim (fun h => absurd h.1 hj) And.right⟩

/-- A parser lets its block go. -/
theorem Base.letsGo {i a : Nat} {p p' : FfiBackend} (h : s.Base) (hp : s.parsers[i]? = some p)
    (hlive : p.collected = false) (ha : p.block = some a)
    (hgone : p'.collected = true ∨ p'.block = none) (n : Int) :
    Base { s with
      parsers := s.parsers.set i p'
      blocks := s.blocks.drop a
      attached := s.attached.filter fun k => k.1 ≠ i
      attachedBlocks := n } := by
  -- The block was the parser's own, so that no other parser loses one.
  have howner : s.Owns i a := (owns_iff hp hlive).2 ha
  have hnever : ∀ c, ¬(p'.collected = false ∧ p'.block = some c) := by
    rintro c ⟨hcollected, hblock⟩
    rcases hgone with htrue | hnone
    · cases htrue.symm.trans hcollected
    · cases hnone.symm.trans hblock
  have howns : ∀ s' : FfiBackends, s'.parsers = s.parsers.set i p' → ∀ j c,
      s'.Owns j c ↔ j ≠ i ∧ s.Owns j c := fun s' hs' j c =>
    (owns_set hp hs').trans (or_iff_right fun h => hnever c h.2)
  have hother : ∀ j c, j ≠ i → s.Owns j c → c ≠ a := by
    rintro j c hj hjc rfl
    exact hj (h.own j i c hjc howner)
  refine ⟨h.unused, h.models, fun c => ?_, fun j k c hj hk => ?_, fun j q c hq hqlive hc => ?_,
    fun j c => ?_, h.nodup.filter _⟩
  · dsimp only
    by_cases hc : c = a
    · subst hc
      rw [Blocks.drop, Function.update_self]
      constructor
      · intro hnone
        cases hnone
      · rintro ⟨j, hj⟩
        obtain ⟨hne, hjc⟩ := (howns _ rfl j c).1 hj
        exact absurd rfl (hother j c hne hjc)
    · rw [Blocks.drop_of_ne hc, h.blocks c]
      refine exists_congr fun j => (Iff.trans ?_ (howns _ rfl j c).symm)
      refine ⟨fun hj => ⟨?_, hj⟩, And.right⟩
      rintro rfl
      rw [owns_iff hp hlive, ha] at hj
      exact hc (Option.some_inj.1 hj).symm
  · exact h.own j k c ((howns _ rfl j c).1 hj).2 ((howns _ rfl k c).1 hk).2
  · obtain ⟨hne, hjc⟩ := (howns _ rfl j c).1 ⟨q, hq, hqlive, hc⟩
    dsimp only at hq ⊢
    rw [List.getElem?_set_ne hne.symm] at hq
    rw [Blocks.drop_of_ne (hother j c hne hjc)]
    exact h.sized j q c hq hqlive hc
  · rw [howns _ rfl, List.mem_filter, h.attached, decide_eq_true_iff, and_comm]

/-- A parser without a block takes one. -/
theorem Base.takes {i a : Nat} {p : FfiBackend} (h : s.Base) (hp : s.parsers[i]? = some p)
    (hlive : p.collected = false) (hnone : p.block = none) (hfree : s.blocks a = none)
    (inputCapacity : Nat) (n : Int) :
    Base { s with
      parsers := s.parsers.set i { p with block := some a, inputCapacity := inputCapacity }
      blocks := s.blocks.alloc a (cellBytes + inputCapacity) {}
      attached := s.attached ++ [(i, a)]
      attachedBlocks := n } := by
  -- The block is free, so that no parser has it, and the parser has no other.
  have hnone' : ∀ c, ¬s.Owns i c := by
    intro c hc
    cases hnone.symm.trans ((owns_iff hp hlive).1 hc)
  have hfresh : ∀ j, ¬s.Owns j a := by
    intro j hj
    have hsome := (h.blocks a).2 ⟨j, hj⟩
    rw [hfree] at hsome
    cases hsome
  have howns : ∀ s' : FfiBackends, s'.parsers = s.parsers.set i
      { p with block := some a, inputCapacity := inputCapacity } → ∀ j c,
      s'.Owns j c ↔ (j = i ∧ c = a) ∨ s.Owns j c := by
    intro s' hs' j c
    rw [owns_set hp hs']
    constructor
    · rintro (⟨rfl, -, hc⟩ | ⟨-, hc⟩)
      · exact Or.inl ⟨rfl, (Option.some_inj.1 hc).symm⟩
      · exact Or.inr hc
    · rintro (⟨rfl, rfl⟩ | hc)
      · exact Or.inl ⟨rfl, hlive, rfl⟩
      · refine Or.inr ⟨?_, hc⟩
        rintro rfl
        exact hnone' c hc
  refine ⟨h.unused, h.models, fun c => ?_, fun j k c hj hk => ?_, fun j q c hq hqlive hc => ?_,
    fun j c => ?_, ?_⟩
  · dsimp only
    by_cases hc : c = a
    · subst hc
      rw [Blocks.alloc_self]
      exact ⟨fun _ => ⟨i, (howns _ rfl i c).2 (Or.inl ⟨rfl, rfl⟩)⟩, fun _ => rfl⟩
    · rw [Blocks.alloc_of_ne hc, h.blocks c]
      refine exists_congr fun j => (Iff.trans ?_ (howns _ rfl j c).symm)
      exact (or_iff_right fun h => hc h.2).symm
  · rcases (howns _ rfl j c).1 hj with ⟨rfl, rfl⟩ | hj'
    · rcases (howns _ rfl k c).1 hk with ⟨rfl, -⟩ | hk'
      · rfl
      · exact absurd hk' (hfresh k)
    · rcases (howns _ rfl k c).1 hk with ⟨rfl, rfl⟩ | hk'
      · exact absurd hj' (hfresh j)
      · exact h.own j k c hj' hk'
  · dsimp only at hq ⊢
    by_cases hj : j = i
    · subst hj
      rw [List.getElem?_set_self (List.getElem?_eq_some_iff.1 hp).1] at hq
      obtain rfl := Option.some_inj.1 hq
      obtain rfl := Option.some_inj.1 hc
      exact ⟨{}, Blocks.alloc_self⟩
    · rw [List.getElem?_set_ne (Ne.symm hj)] at hq
      have hne : c ≠ a := by
        rintro rfl
        exact hfresh j ⟨q, hq, hqlive, hc⟩
      rw [Blocks.alloc_of_ne hne]
      exact h.sized j q c hq hqlive hc
  · rw [howns _ rfl, List.mem_append, h.attached, List.mem_singleton, Prod.mk.injEq, or_comm]
  · refine h.nodup.append (List.nodup_singleton _) ?_
    rintro ⟨j, c⟩ hold hnew
    obtain ⟨rfl, rfl⟩ := Prod.mk.inj (List.mem_singleton.1 hnew)
    exact hfresh j ((h.attached j c).1 hold)

/-- Freeing the block of a parser. -/
theorem Base.freeBlock_eq {i a : Nat} (h : s.Base) (ha : s.Owns i a) :
    s.freeBlock i a = { s with
      blocks := s.blocks.drop a
      attached := s.attached.filter fun k => k.1 ≠ i
      attachedBlocks := s.attachedBlocks - 1 } :=
  if_pos ((h.blocks a).2 ⟨i, ha⟩)

/-- A block in the place of the one that a parser has, if any. -/
theorem Base.replaceBlock {i : Nat} {p : FfiBackend} (h : s.Base) (hp : s.parsers[i]? = some p)
    (hlive : p.collected = false) {inputCapacity a : Nat} (hfree : s.blocks a = none) :
    ∃ s', s.replaceBlock i p inputCapacity (some a) = some s' ∧ s'.Base ∧
      s'.parsers = s.parsers.set i { p with block := some a, inputCapacity := inputCapacity } ∧
      s'.attachedBlocks = s.attachedBlocks + if p.block.isSome then 0 else 1 := by
  have hi := (List.getElem?_eq_some_iff.1 hp).1
  have hsupplied : (some a).filter (fun a => (s.blocks a).isNone) = some a :=
    Option.filter_some_pos (by rw [hfree]; rfl)
  rw [FfiBackends.replaceBlock, hsupplied]
  dsimp only
  cases hblock : p.block with
  | none => exact ⟨_, rfl, h.takes hp hlive hblock hfree _ _, rfl, rfl⟩
  | some old =>
    have howner : s.Owns i old := (owns_iff hp hlive).2 hblock
    have hne : old ≠ a := by
      rintro rfl
      have hsome := (h.blocks old).2 ⟨i, howner⟩
      rw [hfree] at hsome
      cases hsome
    have hnone : ({ p with block := none } : FfiBackend).block = none := rfl
    -- The new block is given out before the old one goes, which comes to the same.
    have hgone := h.letsGo hp hlive hblock (Or.inr hnone) (s.attachedBlocks - 1)
    have htakes := hgone.takes (List.getElem?_set_self hi) hlive hnone
      ((Blocks.drop_of_ne hne.symm).trans hfree) inputCapacity (s.attachedBlocks - 1 + 1)
    dsimp only at htakes
    rw [List.set_set] at htakes
    have hsome : ((s.blocks.alloc a (cellBytes + inputCapacity) {}) old).isSome := by
      rw [Blocks.alloc_of_ne hne]
      exact (h.blocks old).2 ⟨i, howner⟩
    have hfreed : FfiBackends.freeBlock { s with
        blocks := s.blocks.alloc a (cellBytes + inputCapacity) {} } i old = { s with
        blocks := (s.blocks.drop old).alloc a (cellBytes + inputCapacity) {}
        attached := s.attached.filter fun k => k.1 ≠ i
        attachedBlocks := s.attachedBlocks - 1 } := by
      rw [FfiBackends.freeBlock, FfiBackends.mallocFree, if_pos hsome, Blocks.drop_alloc hne.symm]
    rw [Option.elim_some, hfreed]
    exact ⟨_, rfl, htakes, rfl, (Int.sub_add_cancel _ _).trans (Int.add_zero _).symm⟩

/-- Writing in a block leaves who owns it. -/
theorem Base.written (h : s.Base) (a : Nat) (f : NativeMemory → NativeMemory) :
    Base { s with blocks := s.blocks.write a f } := by
  refine ⟨h.unused, h.models, fun c => ?_, h.own, fun j q c hq hlive hc => ?_, h.attached, h.nodup⟩
  · by_cases hc : c = a
    · subst hc
      refine Iff.trans ?_ (h.blocks c)
      dsimp only
      rw [Blocks.write, Function.update_self, Option.isSome_map]
    · refine Iff.trans ?_ (h.blocks c)
      dsimp only
      rw [Blocks.write_of_ne hc]
  · obtain ⟨x, hx⟩ := h.sized j q c hq hlive hc
    by_cases hca : c = a
    · subst hca
      exact ⟨f x, Blocks.write_self hx⟩
    · exact ⟨x, (Blocks.write_of_ne hca).trans hx⟩

/-- A parser whose block is long enough answers, and leaves no model behind. -/
theorem Base.parseInto {host : Host} {i : Nat} {p : FfiBackend} (h : s.Base)
    (hp : s.parsers[i]? = some p) (hlive : p.collected = false) {a : Nat} (ha : p.block = some a)
    {source : Text} (hroom : source.length * 3 ≤ p.inputCapacity) (model : Nat) :
    ∃ out s', s.parseInto host p source model = (out, s') ∧ s'.Base ∧ s'.parsers = s.parsers ∧
      s'.attachedBlocks = s.attachedBlocks ∧
      WasmBackend.outcome out = some (parserAnswer host.extract source) := by
  obtain ⟨x, hx⟩ := h.sized i p a hp hlive ha
  have hread : (p.block.bind fun a => (s.blocks a).map fun k => (a, k)) =
      some (a, ⟨cellBytes + p.inputCapacity, x⟩) := by
    rw [ha, Option.bind_some, hx, Option.map_some]
  obtain ⟨hthrown, hlength, -, -⟩ := encodeUtf8_agrees source
  have hfits : cellBytes + (encodeUtf8 source).1.length ≤ cellBytes + p.inputCapacity :=
    Nat.add_le_add_left (hlength.trans (Nat.mul_comm 3 _ ▸ hroom)) _
  rw [FfiBackends.parseInto, hread]
  dsimp only
  rw [if_pos hfits, hthrown, List.take_left]
  have hbase := h.written a fun m => { m with
    input := (encodeUtf8 source).1 ++ x.input.drop (encodeUtf8 source).1.length }
  cases hvalid : validate source with
  | some e =>
    refine ⟨_, _, rfl, hbase, rfl, rfl, ?_⟩
    rw [parserAnswer, hvalid]
    rfl
  | none =>
    have hanswer : parserAnswer host.extract source =
        flarkParse host.extract (encodeUtf8 source).1 := by
      rw [parserAnswer, hvalid]
    have hcleared := hbase.written a fun m => { m with modelAddress := 0, modelLength := 0 }
    dsimp only
    cases hparse : flarkParse host.extract (encodeUtf8 source).1 with
    | error rc =>
      refine ⟨_, _, rfl, hcleared, rfl, rfl, ?_⟩
      rw [hanswer, hparse]
      rfl
    | ok ws =>
      have hsmall := length_of_flarkParse hparse
      have hwordsOf : ws.length = wordsOf (4 * ws.length) := by
        rw [wordsOf, Nat.mod_eq_of_lt hsmall]
        omega
      have hall : ws.take (4 * ws.length / 4) = ws := by
        rw [Nat.mul_div_cancel_left _ (by decide), List.take_length]
      -- The cell is read back after three writes into the block.
      have hcell := @Blocks.write_self _ _ a
        (fun m => { m with modelAddress := model, modelLength := 4 * ws.length }) _
        (@Blocks.write_self _ _ a (fun m => { m with modelAddress := 0, modelLength := 0 }) _
          (@Blocks.write_self _ _ a (fun m => { m with
            input := (encodeUtf8 source).1 ++ x.input.drop (encodeUtf8 source).1.length }) _ hx))
      have hfree := Blocks.free_eq (@Blocks.alloc_self _ s.models model ws.length ws) hwordsOf
      have hcopied := hcleared.written a fun m => { m with
        modelAddress := model, modelLength := 4 * ws.length }
      dsimp only at hcell ⊢
      rw [hcell]
      dsimp only
      rw [Blocks.alloc_self, Option.map_some, hall, hfree]
      refine ⟨_, _, rfl, ⟨hcopied.unused, ?_, hcopied.blocks, hcopied.own, hcopied.sized,
        hcopied.attached, hcopied.nodup⟩, rfl, rfl, ?_⟩
      · exact h.models.alloc.drop List.not_mem_nil
      · rw [hanswer, hparse]
        rfl

/-! ## Events -/

theorem parser?_eq {i : Nat} {p : FfiBackend} (hp : s.parser? i = some p) :
    s.parsers[i]? = some p ∧ p.collected = false := by
  obtain ⟨hget, hlive⟩ := Option.filter_eq_some_iff.1 hp
  exact ⟨hget, Bool.not_eq_true' _ ▸ hlive⟩

/-- What a change of one parser does to the count. -/
theorem openCount_set {i : Nat} {p p' : FfiBackend} (hp : s.parsers[i]? = some p) :
    openCount (s.parsers.set i p') + (if p.disposed then 0 else 1) =
      openCount s.parsers + if p'.disposed then 0 else 1 := by
  obtain ⟨hi, rfl⟩ := List.getElem?_eq_some_iff.1 hp
  rw [openCount, List.countP_set hi, openCount]
  cases hopen : s.parsers[i].disposed with
  | true => cases p'.disposed <;> rfl
  | false =>
    have hpos : 0 < s.parsers.countP fun p => !p.disposed :=
      List.countP_pos_iff.2 ⟨_, List.getElem_mem hi, by rw [hopen]; rfl⟩
    cases p'.disposed
    · exact congrArg (· + 1) (Nat.sub_add_cancel hpos)
    · exact Nat.sub_add_cancel hpos

/-- A parser holds a block as long as it is not disposed, after a change of one too. -/
theorem held_set {i : Nat} {p p' : FfiBackend} (h : s.Invariant) (hp : s.parsers[i]? = some p)
    (hp' : p'.block.isSome ↔ p'.disposed = false) (j : Nat) (q : FfiBackend)
    (hq : (s.parsers.set i p')[j]? = some q) : q.block.isSome ↔ q.disposed = false := by
  by_cases hj : j = i
  · subst hj
    rw [List.getElem?_set_self (List.getElem?_eq_some_iff.1 hp).1] at hq
    rw [← Option.some_inj.1 hq]
    exact hp'
  · rw [List.getElem?_set_ne (Ne.symm hj)] at hq
    exact h.held j q hq

/-- A parser without a block changes, and still has none. -/
theorem Base.idles {i : Nat} {p p' : FfiBackend} (h : s.Base) (hp : s.parsers[i]? = some p)
    (hnone : p.block = none) (hnone' : p'.block = none) :
    Base { s with parsers := s.parsers.set i p' } := by
  have howns : ∀ s' : FfiBackends, s'.parsers = s.parsers.set i p' → ∀ j c,
      s'.Owns j c ↔ s.Owns j c := by
    intro s' hs' j c
    rw [owns_set hp hs']
    constructor
    · rintro (⟨-, -, hc⟩ | ⟨-, hc⟩)
      · cases hnone'.symm.trans hc
      · exact hc
    · refine fun hc => Or.inr ⟨?_, hc⟩
      rintro rfl
      obtain ⟨q, hq, -, hblock⟩ := hc
      obtain rfl := Option.some_inj.1 (hp.symm.trans hq)
      cases hnone.symm.trans hblock
  refine ⟨h.unused, h.models,
    fun c => (h.blocks c).trans (exists_congr fun j => (howns _ rfl j c).symm),
    fun j k c hj hk => h.own j k c ((howns _ rfl j c).1 hj) ((howns _ rfl k c).1 hk),
    fun j q c hq hlive hc => ?_, fun j c => (h.attached j c).trans (howns _ rfl j c).symm, h.nodup⟩
  dsimp only at hq
  by_cases hj : j = i
  · subst hj
    rw [List.getElem?_set_self (List.getElem?_eq_some_iff.1 hp).1] at hq
    obtain rfl := Option.some_inj.1 hq
    cases hnone'.symm.trans hc
  · rw [List.getElem?_set_ne (Ne.symm hj)] at hq
    exact h.sized j q c hq hlive hc

/-- A new parser keeps the invariant, its block allocated or not. -/
theorem Invariant.create (h : s.Invariant) (host : Host) (at_ : Option Nat) :
    (s.create host at_).Invariant := by
  rw [FfiBackends.create]
  split_ifs with hversion
  · exact h
  · have hget : (s.parsers ++ [({} : FfiBackend)])[s.parsers.length]? = some {} :=
      List.getElem?_concat_length
    have hpush : ∀ j q, (s.parsers ++ [({} : FfiBackend)])[j]? = some q ↔
        s.parsers[j]? = some q ∨ j = s.parsers.length ∧ ({} : FfiBackend) = q := fun j q => by grind
    have howns : ∀ s' : FfiBackends, s'.parsers = s.parsers ++ [({} : FfiBackend)] → ∀ j c,
        s'.Owns j c ↔ s.Owns j c := by
      intro s' hs' j c
      constructor
      · rintro ⟨q, hq, hlive, hc⟩
        rw [hs', hpush] at hq
        rcases hq with hq | ⟨-, rfl⟩
        · exact ⟨q, hq, hlive, hc⟩
        · cases hc
      · rintro ⟨q, hq, hlive, hc⟩
        exact ⟨q, hs' ▸ (hpush j q).2 (Or.inl hq), hlive, hc⟩
    -- Without its block the parser is not one that a host can hold.
    have hbase : Base { s with parsers := s.parsers ++ [({} : FfiBackend)] } := by
      refine ⟨h.unused, h.models,
        fun c => (h.blocks c).trans (exists_congr fun j => (howns _ rfl j c).symm),
        fun j k c hj hk => h.own j k c ((howns _ rfl j c).1 hj) ((howns _ rfl k c).1 hk),
        fun j q c hq hlive hc => ?_, fun j c => (h.attached j c).trans (howns _ rfl j c).symm,
        h.nodup⟩
      rcases (hpush j q).1 hq with hq | ⟨-, rfl⟩
      · exact h.sized j q c hq hlive hc
      · cases hc
    cases hat : at_.filter fun a => (s.blocks a).isNone with
    | none =>
      have hthrows : FfiBackends.replaceBlock { s with parsers := s.parsers ++ [({} : FfiBackend)] }
          s.parsers.length {} initialInputCapacity at_ = none := by
        rw [FfiBackends.replaceBlock, hat]
      dsimp only
      rw [hthrows]
      exact h
    | some a =>
      obtain ⟨rfl, hfree⟩ := Option.filter_eq_some_iff.1 hat
      obtain ⟨s', heq, hbase', hparsers, hcount⟩ := @Base.replaceBlock
        { s with parsers := s.parsers ++ [({} : FfiBackend)] } s.parsers.length {} hbase hget rfl
        initialInputCapacity a (Option.isNone_iff_eq_none.1 hfree)
      dsimp only
      rw [heq]
      have hall : s'.parsers = s.parsers ++
          [({ block := some a, inputCapacity := initialInputCapacity } : FfiBackend)] := by
        rw [hparsers, List.set_append_right _ _ le_rfl, Nat.sub_self]
        rfl
      refine ⟨hbase', fun j q hq => ?_, ?_⟩
      · have hq' : s.parsers[j]? = some q ∨ j = s.parsers.length ∧
            ({ block := some a, inputCapacity := initialInputCapacity } : FfiBackend) = q := by
          rw [Option.getD_some, hall] at hq
          grind
        rcases hq' with hq | ⟨-, rfl⟩
        · exact h.held j q hq
        · exact ⟨fun _ => rfl, fun _ => rfl⟩
      · rw [Option.getD_some, hcount, hall, openCount, List.countP_append]
        exact congrArg (· + 1) h.count

/-- What `parse` comes to, for a parser that is not disposed. -/
inductive Answered (s : FfiBackends) (host : Host) (p : FfiBackend) (source : Text)
    (grown : Option Nat) (out : Except Unwound (List UInt32)) (s' : FfiBackends) : Prop
  | answers (answer : WasmBackend.outcome out = some (parserAnswer host.extract source))
  /-- In the worst case the input is longer than the library takes. -/
  | tooLong (length : maxInputBytes < source.length * 3) (same : s' = s)
      (error : WasmBackend.outcome out = some (.error ParseException.invalidHostTextCode))
  /-- There is no memory for a longer input. -/
  | noRoom (length : p.inputCapacity < source.length * 3)
      (full : ∀ a, grown = some a → s.blocks a ≠ none) (same : s' = s) (text : String)
      (error : out = .error (.thrown text))

/-- A parse keeps the invariant: refused, out of room, failed or answered, each with the blocks it
    took given back. -/
theorem Invariant.parse (h : s.Invariant) {host : Host} {i : Nat} {p : FfiBackend}
    (hp : s.parser? i = some p) (source : Text) (grown : Option Nat) (model : Nat) :
    ∃ out s', s.parse host i p source grown model = (out, s') ∧ s'.Invariant ∧
      (p.disposed = true → out = .error (.state "FfiParseBackend used after dispose") ∧ s' = s) ∧
      (p.disposed = false → Answered s host p source grown out s') := by
  obtain ⟨hget, hlive⟩ := parser?_eq hp
  rw [FfiBackends.parse]
  by_cases hdisposed : p.disposed = true
  · rw [if_pos hdisposed]
    exact ⟨_, s, rfl, h, fun _ => ⟨rfl, rfl⟩,
      fun hopen => absurd hdisposed (Bool.eq_false_iff.1 hopen)⟩
  rw [if_neg hdisposed]
  have hopen : p.disposed = false := Bool.eq_false_iff.2 hdisposed
  -- A source that is too long for the block is refused, or takes a larger block first.
  split_ifs with hlong
  · rw [inputCapacityFor]
    split_ifs with hworst
    · exact ⟨_, s, rfl, h, fun hd => absurd hd hdisposed, fun _ => .tooLong hworst rfl rfl⟩
    · generalize hcapacity : min (source.length * 3 * 2) maxInputBytes = capacity
      have hroom : source.length * 3 ≤ capacity := by omega
      dsimp only
      cases hat : grown.filter fun a => (s.blocks a).isNone with
      | none =>
        have hthrows : s.replaceBlock i p capacity grown = none := by
          rw [FfiBackends.replaceBlock, hat]
        have hfull : ∀ a, grown = some a → s.blocks a ≠ none := by
          rintro a rfl hnone
          exact Option.filter_eq_none_iff.1 hat a rfl (Option.isNone_iff_eq_none.2 hnone)
        rw [hthrows]
        exact ⟨_, s, rfl, h, fun hd => absurd hd hdisposed, fun _ => .noRoom hlong hfull rfl _ rfl⟩
      | some a =>
        obtain ⟨rfl, hfree⟩ := Option.filter_eq_some_iff.1 hat
        obtain ⟨s₁, heq, hbase, hparsers, hcount⟩ := @Base.replaceBlock s i p h.toBase hget hlive
          capacity a (Option.isNone_iff_eq_none.1 hfree)
        have hi := (List.getElem?_eq_some_iff.1 hget).1
        have hget₁ : s₁.parsers[i]? =
            some { p with block := some a, inputCapacity := capacity } := by
          rw [hparsers, List.getElem?_set_self hi]
        obtain ⟨out, s', heq', hbase', hparsers', hcount', hanswer⟩ :=
          @Base.parseInto s₁ host i _ hbase hget₁ hlive a rfl source hroom model
        rw [heq]
        dsimp only
        rw [heq']
        refine ⟨out, s', rfl, ⟨hbase', ?_, ?_⟩, fun hd => absurd hd hdisposed,
          fun _ => .answers hanswer⟩
        · rw [hparsers', hparsers]
          exact held_set h hget ⟨fun _ => hopen, fun _ => rfl⟩
        · have hblock : p.block.isSome := (h.held i p hget).2 hopen
          have hsame := @openCount_set s i p
            { p with block := some a, inputCapacity := capacity } hget
          rw [hcount', hcount, hparsers', hparsers, if_pos hblock, h.count]
          exact congrArg Nat.cast (Nat.add_right_cancel hsame).symm
  · obtain ⟨a, ha⟩ := Option.isSome_iff_exists.1 ((h.held i p hget).2 hopen)
    obtain ⟨out, s', heq, hbase, hparsers, hcount, hanswer⟩ :=
      @Base.parseInto s host i p h.toBase hget hlive a ha source (Nat.le_of_not_lt hlong) model
    refine ⟨out, s', heq, ⟨hbase, hparsers ▸ h.held, ?_⟩, fun hd => absurd hd hdisposed,
      fun _ => .answers hanswer⟩
    rw [hcount, hparsers]
    exact h.count

/-- Disposal keeps the invariant, once and again. -/
theorem Invariant.dispose (h : s.Invariant) {i : Nat} {p : FfiBackend} (hp : s.parser? i = some p) :
    (s.dispose i p).Invariant := by
  obtain ⟨hget, hlive⟩ := parser?_eq hp
  rw [FfiBackends.dispose]
  split_ifs with hdisposed
  · exact h
  · have hopen : p.disposed = false := Bool.eq_false_iff.2 hdisposed
    obtain ⟨a, ha⟩ := Option.isSome_iff_exists.1 ((h.held i p hget).2 hopen)
    rw [ha, Option.elim_some, h.freeBlock_eq ((owns_iff hget hlive).2 ha)]
    refine ⟨h.letsGo hget hlive ha (Or.inr rfl) _, @held_set s i p _ h hget ⟨nofun, nofun⟩, ?_⟩
    have hcount := @openCount_set s i p
      { p with disposed := true, block := none, inputCapacity := 0 } hget
    rw [hopen] at hcount
    refine Int.sub_eq_iff_eq_add.2 (h.count.trans ?_)
    exact congrArg Nat.cast hcount.symm

/-- The block of a parser is all that is attached for it. -/
theorem Base.attached_of {i a : Nat} (h : s.Base) (ha : s.Owns i a) :
    s.attached.filter (fun k => k.1 = i) = [(i, a)] := by
  have hmem : (i, a) ∈ s.attached.filter fun k => k.1 = i :=
    List.mem_filter.2 ⟨(h.attached i a).2 ha, decide_eq_true rfl⟩
  have hall : ∀ k ∈ s.attached.filter fun k => k.1 = i, k = (i, a) := by
    rintro ⟨j, c⟩ hk
    obtain ⟨hkept, hj⟩ := List.mem_filter.1 hk
    obtain rfl : j = i := of_decide_eq_true hj
    obtain ⟨q, hq, hlive, hc⟩ := (h.attached j c).1 hkept
    rw [owns_iff hq hlive, hc] at ha
    rw [Option.some_inj.1 ha]
  -- The entries of the parser are copies of one, and no entry is there twice.
  obtain ⟨n, hn⟩ : ∃ n, s.attached.filter (fun k => k.1 = i) = List.replicate n (i, a) :=
    ⟨_, List.eq_replicate_of_mem hall⟩
  have hnodup := h.nodup.filter fun k => k.1 = i
  rw [hn] at hmem hnodup ⊢
  have hle : n ≤ 1 := List.nodup_replicate.1 hnodup
  have hpos : n ≠ 0 := (List.mem_replicate.1 hmem).1
  obtain rfl : n = 1 := by omega
  rfl

/-- A collection keeps the invariant: the finalizer frees what the parser had. -/
theorem Invariant.collect (h : s.Invariant) {i : Nat} {p : FfiBackend} (hp : s.parser? i = some p) :
    (s.collect i p).Invariant := by
  obtain ⟨hget, hlive⟩ := parser?_eq hp
  have hcount : openCount (s.parsers.set i { p with collected := true }) = openCount s.parsers :=
    Nat.add_right_cancel (@openCount_set s i p { p with collected := true } hget)
  have hheld := @held_set s i p { p with collected := true } h hget (h.held i p hget)
  rw [FfiBackends.collect]
  -- A parser that was disposed has nothing that the finalizer would free.
  rcases Option.eq_none_or_eq_some p.block with hblock | ⟨a, hblock⟩
  · have hnothing : ∀ k ∈ s.attached, k.1 ≠ i := by
      rintro ⟨j, c⟩ hk rfl
      cases hblock.symm.trans ((owns_iff hget hlive).1 ((h.attached j c).1 hk))
    have hgone : (s.attached.filter fun k => k.1 = i) = [] :=
      List.filter_eq_nil_iff.2 fun k hk => by
        rw [decide_eq_true_iff]
        exact hnothing k hk
    have hkept : (s.attached.filter fun k => k.1 ≠ i) = s.attached :=
      List.filter_eq_self.2 fun k hk => decide_eq_true (hnothing k hk)
    rw [hgone]
    dsimp only [List.foldl_nil]
    rw [hkept]
    exact ⟨h.idles hget hblock hblock, hheld, h.count.trans (congrArg _ hcount.symm)⟩
  · have howner : s.Owns i a := (owns_iff hget hlive).2 hblock
    have hfreed : s.mallocFree a = { s with blocks := s.blocks.drop a } :=
      if_pos ((h.blocks a).2 ⟨i, howner⟩)
    rw [h.attached_of howner]
    dsimp only [List.foldl_cons, List.foldl_nil]
    rw [hfreed]
    exact ⟨h.letsGo hget hlive hblock (Or.inl rfl) _, hheld,
      h.count.trans (congrArg _ hcount.symm)⟩

/-! ## Runs -/

/-- No parsers have the invariant. -/
theorem Invariant.empty : ({} : FfiBackends).Invariant := by
  have hnothing : ∀ i a, ¬({} : FfiBackends).Owns i a := by
    rintro i a ⟨p, hp, -⟩
    cases hp
  refine ⟨⟨rfl, Blocks.holds_empty, fun a => ?_, fun i j a hi => absurd hi (hnothing i a), ?_,
    fun i a => ?_, List.nodup_nil⟩, ?_, rfl⟩
  · exact ⟨fun h => absurd h (fun h => by cases h), fun ⟨i, hi⟩ => absurd hi (hnothing i a)⟩
  · rintro i p a ⟨⟩
  · exact ⟨fun h => absurd h List.not_mem_nil, fun h => absurd h (hnothing i a)⟩
  · rintro i p ⟨⟩

/-- Every event keeps the invariant. -/
theorem Invariant.step {host : Host} {s s' : FfiBackends} {e : Event} (h : s.Invariant)
    (hstep : step host s e = some s') : s'.Invariant := by
  cases e with
  | create at_ =>
    obtain rfl := Option.some_inj.1 hstep
    exact h.create host at_
  | parse i source grown model =>
    obtain ⟨p, hp, hparse⟩ := Option.bind_eq_some_iff.1 hstep
    split_ifs at hparse
    obtain ⟨out, s₁, heq, hinvariant, -⟩ := @Invariant.parse s h host i p hp source grown model
    rw [heq] at hparse
    exact Option.some_inj.1 hparse ▸ hinvariant
  | dispose i =>
    obtain ⟨p, hp, rfl⟩ := Option.map_eq_some_iff.1 hstep
    exact h.dispose hp
  | collect i =>
    obtain ⟨p, hp, rfl⟩ := Option.map_eq_some_iff.1 hstep
    exact h.collect hp

/-- A process that hosts and the collector can bring about. -/
def Reached (host : Host) (s : FfiBackends) : Prop :=
  ∃ events, Runs.run (step host) {} events = some s

/-- What is reached has the invariant. -/
theorem Reached.invariant {host : Host} (hs : Reached host s) : s.Invariant := by
  obtain ⟨events, hrun⟩ := hs
  exact Runs.run_invariant (fun _ _ _ h hstep => h.step hstep) hrun Invariant.empty

/-- Whatever hosts and the collector do, and in whatever order, one block is live, and attached, for
    each parser that was neither disposed nor collected. Nothing is freed twice, no block is written
    past its end, and no model is left. -/
theorem run_owned {host : Host} (hs : Reached host s) : s.Invariant := hs.invariant

/-- Two parsers are made, the first one parses, and the second one is dropped. -/
def dropped : FfiBackends :=
  (Runs.run (step WasmBackend.panicsOnOne) {} [.create (some 8), .parse 0 [0x61, 0x62] none 64,
    .create (some 16), .collect 1]).getD {}

theorem reached_dropped : Reached WasmBackend.panicsOnOne dropped :=
  ⟨[.create (some 8), .parse 0 [0x61, 0x62] none 64, .create (some 16), .collect 1], rfl⟩

/-- A parser was dropped without disposal, and its block is still attached. -/
theorem run_owned_dropped : dropped.misused = false ∧ dropped.attached = [(0, 8)] :=
  ⟨(run_owned reached_dropped).unused, by decide⟩

/-- A parser answers for its own source, whatever came to the others. Where it cannot, nothing has
    changed. -/
theorem run_replies {host : Host} (hs : Reached host s) {i : Nat} {p : FfiBackend}
    (hp : s.parser? i = some p) (source : Text) (grown : Option Nat) (model : Nat) :
    (p.disposed = true → s.parse host i p source grown model =
        (.error (.state "FfiParseBackend used after dispose"), s)) ∧
      (p.disposed = false → Answered s host p source grown
        (s.parse host i p source grown model).1 (s.parse host i p source grown model).2) := by
  obtain ⟨out, s', heq, -, hclosed, hopen⟩ := hs.invariant.parse hp source grown model
  rw [heq]
  exact ⟨fun h => Prod.ext (hclosed h).1 (hclosed h).2, hopen⟩

/-- It could still be asked, and answers. -/
theorem run_replies_dropped : Answered dropped WasmBackend.panicsOnOne
    { block := some 8, inputCapacity := initialInputCapacity } [0x61] none
    (dropped.parse WasmBackend.panicsOnOne 0
      { block := some 8, inputCapacity := initialInputCapacity } [0x61] none 64).1
    (dropped.parse WasmBackend.panicsOnOne 0
      { block := some 8, inputCapacity := initialInputCapacity } [0x61] none 64).2 :=
  (run_replies reached_dropped rfl [0x61] none 64).2 rfl

/-- Of one source, the two transports make the same model, or report the same error, where each has
    the memory it needs. In this call of the web parser and in those before it, an instance that has
    trapped can be replaced, and the length that is asked for the source is one of 32 bits
    (`WasmBackend.Event.Sane`). -/
theorem transports_agree {host : Host} (hs : Reached host s) {i : Nat} {p : FfiBackend}
    (hp : s.parser? i = some p) (hopen : p.disposed = false) {source : Text} {grown : Option Nat}
    (hgrown : p.inputCapacity < source.length * 3 → ∃ a, grown = some a ∧ s.blocks a = none)
    (model : Nat) {w : WasmBackend} (hw : WasmBackend.Reached host w) (hwopen : w.disposed = false)
    {supply : Supply} (hsupply : supply.Rebuilds host) (hsource : source.length * 6 < 2 ^ 32)
    (hmemory : (WasmBackend.parse host source supply w).2.exhausted = false) :
    WasmBackend.outcome (s.parse host i p source grown model).1 =
      WasmBackend.outcome (WasmBackend.parse host source supply w).1 := by
  obtain ⟨hhost, hwinvariant⟩ := hw.spec
  obtain ⟨out, w', hweq, -, -, hparsed⟩ := hwinvariant.parse hhost hsupply hsource
  obtain ⟨out', s', heq, -, -, hanswered⟩ := hs.invariant.parse hp source grown model
  rw [hweq] at hmemory
  rw [hweq, heq, (hparsed hwopen).answer hmemory]
  cases hanswered hopen with
  | answers answer => exact answer
  | tooLong length same error =>
    have hshort : source.length * 3 ≤ maxInputBytes := by
      rw [maxInputBytes]
      omega
    exact absurd length (Nat.not_lt.2 hshort)
  | noRoom length full same text error =>
    obtain ⟨a, rfl, hfree⟩ := hgrown length
    exact absurd hfree (full a rfl)

/-- It answers what the one in WebAssembly does. -/
theorem transports_agree_dropped :
    WasmBackend.outcome (dropped.parse WasmBackend.panicsOnOne 0
        { block := some 8, inputCapacity := initialInputCapacity } [0x61, 0x62] none 64).1 =
      WasmBackend.outcome (WasmBackend.parse WasmBackend.panicsOnOne [0x61, 0x62]
        WasmBackend.supplied WasmBackend.trappedOnce).1 :=
  transports_agree reached_dropped rfl rfl (fun h => absurd h (by decide)) 64
    WasmBackend.reached_trappedOnce (by decide) WasmBackend.supplied_rebuilds (by decide)
    (by decide)

end FfiBackends

end Flark
