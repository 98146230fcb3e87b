import Flark.Lib.Blocks
import Flark.Lib.Programs
import Flark.Lib.Runs
import Flark.Parse.HostText
import Flark.Schema

/-!
# The web transport

`WasmParseBackend` of `backend_web.dart`, over the calls of `flark_parse` (`lib.rs`): a parser in an
instance of a Wasm module, whose memory can run out, and whose calls can trap. Whatever comes to the
instance, the calls of the host go on.

The model is a program over the memory of the instance. What the allocator gives out, and whether an
instance can be built, is told from outside (`Supply`), call by call. What the extraction makes of
bytes is a parameter.

* `WasmBackend.Ready`: the memory between two calls;
* `WasmBackend.Invariant.parse`: what one call comes to;
* `WasmBackend.run_safe`, `WasmBackend.run_answers`: no call is made that the library forbids, and
  every call answers for its own source.
-/

namespace Flark

open Native HostText

/-! ## The library -/

/-- What `Extractor::extract` comes to. -/
inductive Extraction
  | words (ws : List UInt32)
  | refused
  | panics
  deriving DecidableEq, Repr

def panicCode : Int := 3

/-- `flark_parse`, where no argument is null: the words of the model, or its code. -/
def flarkParse (extract : List UInt8 → Extraction) (bytes : List UInt8) :
    Except Int (List UInt32) :=
  match utf16OfUtf8 bytes with
  | none => .error 2
  | some _ =>
    match extract bytes with
    | .words ws => if 4 * ws.length < 2 ^ 32 then .ok ws else .error 4
    | .refused => .error 4
    | .panics => .error panicCode

/-- A parse that fails does so with a code that is not zero. -/
theorem flarkParse_ne_zero {extract : List UInt8 → Extraction} {bytes : List UInt8} {code : Int}
    (h : flarkParse extract bytes = .error code) : code ≠ 0 := by
  rintro rfl
  rw [flarkParse] at h
  split at h
  · cases h
  · split at h
    · split_ifs at h
      cases h
    · cases h
    · cases h

/-- A model that is answered is counted in 32 bits. -/
theorem length_of_flarkParse {extract : List UInt8 → Extraction} {bytes : List UInt8}
    {ws : List UInt32} (h : flarkParse extract bytes = .ok ws) : 4 * ws.length < 2 ^ 32 := by
  rw [flarkParse] at h
  split at h
  · cases h
  · split at h
    · split_ifs at h with hlength
      rw [← Except.ok.inj h]
      exact hlength
    · cases h
    · cases h

/-- What a parser is to answer for a source: the words of its model, or the code of what is thrown. -/
def parserAnswer (extract : List UInt8 → Extraction) (source : Text) : Except Int (List UInt32) :=
  match validate source with
  | some e => .error e.code
  | none => flarkParse extract (encodeUtf8 source).1

/-- What a block of the memory holds. -/
inductive Content
  /-- What was written from its beginning on. -/
  | bytes (bs : List UInt8)
  /-- The address and the length of a model. -/
  | cell (address length : Nat)
  /-- A model. -/
  | words (ws : List UInt32)
  deriving DecidableEq, Repr

/-- An instance of the module. -/
structure Instance where
  blocks : Blocks Content := .empty
  /-- A call into it has trapped. -/
  trapped : Bool := false

/-- The words that an allocation of so many bytes takes (`div_ceil`). -/
def wordsOf (len : Nat) : Nat := (len % 2 ^ 32 + 3) / 4

/-! ## The host -/

/-- What unwinds out of a call. -/
inductive Unwound
  /-- A `FlarkParseException`. -/
  | parse (e : ParseException)
  /-- A `StateError`. -/
  | state (message : String)
  /-- Another error. -/
  | thrown (text : String)
  /-- A trap. -/
  | trap (text : String)
  deriving DecidableEq, Repr

def Unwound.text : Unwound → String
  | parse e => "FlarkParseException(" ++ toString e.code ++ "): " ++ e.message
  | state message => "Bad state: " ++ message
  | thrown text => text
  | trap text => text

/-- The compiler of the host. -/
inductive Compiler
  | dart2js
  | dart2wasm
  deriving DecidableEq, Repr

/-- What a handler of the host sees: under dart2wasm no trap. -/
def Compiler.catches : Compiler → Unwound → Bool
  | .dart2wasm, .trap _ => false
  | _, _ => true

/-- A compiled module, and what hosts it. -/
structure Host where
  compiler : Compiler
  version : Nat
  extract : List UInt8 → Extraction

/-- A parser is created over a module that writes what the package reads. -/
def Host.Compatible (host : Host) : Prop := host.version = RenderModelSchema.version

/-- How an instance can be built: whether there is one, and where the allocator puts its blocks. -/
structure Rebuilt where
  instantiates : Bool
  outCell : Option Nat
  input : Option Nat
  deriving DecidableEq, Repr

/-- There is one, and two blocks of its memory. -/
def Rebuilt.Builds (r : Rebuilt) : Prop :=
  r.instantiates = true ∧ ∃ outCell input, r.outCell = some outCell ∧ r.input = some input ∧
    input ≠ outCell

/-- What the memory and the browser have for one call. -/
structure Supply where
  /-- For an instance that the last call left in its middle. -/
  first : Rebuilt
  /-- Where a longer input goes. -/
  grown : Option Nat
  /-- Where the model goes. -/
  model : Option Nat
  /-- For an instance that has trapped. -/
  rebuilt : Rebuilt
  deriving DecidableEq, Repr

/-- An instance that replaces one that has trapped: it is built, or what goes wrong is a trap that no
    handler sees. -/
def Supply.Rebuilds (host : Host) (supply : Supply) : Prop :=
  supply.rebuilt.Builds ∨ host.compiler = .dart2wasm ∧ supply.rebuilt.instantiates = true

structure WasmBackend where
  /-- What `_exports` and `_memory` are of. -/
  wasm : Option Instance := none
  disposed : Bool := false
  entered : Bool := false
  outCell : Nat := 0
  input : Nat := 0
  inputCapacity : Nat := 0
  /-- The library was called as it forbids. -/
  misused : Bool := false
  /-- In the last call an allocation failed, or there was no instance to be had. -/
  exhausted : Bool := false

namespace WasmBackend

/-- A program of the host. -/
abbrev Wasm (α : Type) : Type := Program Unwound WasmBackend α

def initialInputCapacity : Nat := 4096

/-- `try` and `catch`. -/
def catching {α : Type} (c : Compiler) (m : Wasm α) (handler : Unwound → Wasm α) : Wasm α :=
  fun s => match m s with
    | (.ok a, s) => (.ok a, s)
    | (.error e, s) => if c.catches e then handler e s else (.error e, s)

/-- `try` and `finally`, for what no handler sees too: then nothing is done. -/
def finally_ {α : Type} (c : Compiler) (m : Wasm α) (f : WasmBackend → WasmBackend) : Wasm α :=
  fun s => match m s with
    | (.ok a, s) => (.ok a, f s)
    | (.error e, s) => (.error e, if c.catches e then f s else s)

/-- `_contained`: a trap that no handler sees becomes an error that one does. -/
def contained {α : Type} (c : Compiler) (m : Wasm α) : Wasm α :=
  fun s => match m s with
    | (.ok a, s) => (.ok a, s)
    | (.error e, s) => (.error (if c.catches e then e else .thrown "RuntimeError (a Wasm trap)"), s)

/-- The library is called as it forbids. -/
def misuse {α : Type} : Wasm α :=
  fun s => (.error (.thrown "undefined behaviour"), { s with misused := true })

/-- A call into the instance traps. -/
def traps {α : Type} : Wasm α := fun s =>
  (.error (.trap "RuntimeError: unreachable"),
    { s with wasm := s.wasm.map fun w => { w with trapped := true } })

/-- The memory of the instance has run out. -/
def exhausts {α : Type} : Wasm α := fun s => traps { s with exhausted := true }

/-- A call into the instance, by what it does with the blocks. -/
def call {α : Type} (f : Blocks Content → Wasm α) : Wasm α := fun s =>
  match s.wasm with
  | none => misuse s
  | some w => if w.trapped then misuse s else f w.blocks s

/-- The blocks after a call. -/
def leaves (b : Blocks Content) : Wasm Unit :=
  Program.modify fun s => { s with wasm := s.wasm.map fun w => { w with blocks := b } }

/-- `_alloc`, and `flark_parse_alloc`. -/
def alloc (len : Nat) (at_ : Option Nat) : Wasm Nat := call fun b =>
  match at_.filter fun a => (b a).isNone with
  | none => exhausts
  | some a => do
    leaves (b.alloc a (wordsOf len) (.bytes []))
    pure a

/-- `_free`, and `flark_parse_free`. -/
def free (ptr len : Nat) : Wasm Unit := call fun b =>
  match b.free ptr (wordsOf len) with
  | none => misuse
  | some b => leaves b

/-- The end of `_instantiate`: the blocks that the parser keeps. -/
def takeBuffers (r : Rebuilt) : Wasm Unit := do
  let outCell ← alloc 16 r.outCell
  Program.modify fun s => { s with outCell := outCell, inputCapacity := initialInputCapacity }
  let input ← alloc initialInputCapacity r.input
  Program.modify fun s => { s with input := input }

/-- `_instantiate`. -/
def instantiate (host : Host) (r : Rebuilt) : Wasm Unit := do
  if !r.instantiates then do
    Program.modify fun s => { s with exhausted := true }
    Program.throw (.thrown "WebAssembly.Instance")
  Program.modify fun s => { s with wasm := some {} }
  if host.version ≠ RenderModelSchema.version then
    Program.throw (.parse ⟨ParseException.schemaMismatchCode,
      "flark_parse.wasm writes schema " ++ toString host.version ++ ", this package reads " ++
        toString RenderModelSchema.version⟩)
  takeBuffers r

/-- The part of `_parse` that makes room for a source. -/
def grow (host : Host) (source : Text) (supply : Supply) : Wasm Unit := fun s =>
  if source.length * 3 > s.inputCapacity then
    let capacity := source.length * 6
    catching host.compiler (do
      let input ← contained host.compiler (alloc capacity supply.grown)
      free s.input s.inputCapacity
      Program.modify fun s => { s with input := input, inputCapacity := capacity })
      (fun e => do
        instantiate host supply.rebuilt
        Program.throw (.parse
          ⟨ParseException.faultCode, "wasm trap allocating parser input: " ++ e.text⟩)) s
  else (.ok (), s)

/-- The part of `_parse` that writes a source into the memory: how many bytes it is. -/
def encode (source : Text) : Wasm Nat := fun s =>
  match s.wasm.bind fun w => w.blocks s.input with
  | some ⟨words, .bytes before⟩ =>
    -- What an earlier source left behind what is written stays.
    let (read, written) := encodeInto s.inputCapacity source
    let s := if s.inputCapacity ≤ 4 * words then s else { s with misused := true }
    let s := { s with wasm := s.wasm.map fun w => { w with
      blocks := w.blocks.write s.input fun _ => .bytes (written ++ before.drop written.length) } }
    if read ≠ source.length then (.error (.state "flark_parse input buffer too small"), s)
    else (.ok written.length, s)
  | _ => misuse s

/-- The call of `flark_parse`. A panic aborts. -/
def callParse (host : Host) (input length outCell : Nat) (model : Option Nat) : Wasm Int :=
  call fun b =>
    match b input, b outCell with
    | some ⟨_, .bytes bs⟩, some cell =>
      if cell.length < 3 ∨ bs.length < length then misuse
      else do
        let b := b.write outCell fun _ => .cell 0 0
        leaves b
        match model.filter fun a => (b a).isNone with
        | none => exhausts
        | some a =>
          match flarkParse host.extract (bs.take length) with
          | .ok ws => do
            leaves ((b.alloc a ws.length (.words ws)).write outCell fun _ => .cell a (4 * ws.length))
            pure 0
          | .error code => if code = panicCode then traps else pure code
    | _, _ => misuse

/-- The part of `_parse` that copies the model out, and frees it. -/
def copyOut : Wasm (List UInt32) := fun s =>
  match s.wasm.bind fun w => w.blocks s.outCell with
  | some ⟨_, .cell outPtr outLen⟩ =>
    match s.wasm.bind fun w => w.blocks outPtr with
    | some ⟨_, .words ws⟩ => (do
        free outPtr outLen
        pure (ws.take (outLen / 4)) : Wasm (List UInt32)) s
    | _ => misuse s
  | _ => misuse s

/-- `_parse`: the words of the model. -/
def parseEntered (host : Host) (source : Text) (supply : Supply) : Wasm (List UInt32) := do
  grow host source supply
  let length ← encode source
  let s ← Program.get
  let rc ← catching host.compiler
    (contained host.compiler (callParse host s.input length s.outCell supply.model))
    (fun e => do
      instantiate host supply.rebuilt
      Program.throw (.parse ⟨ParseException.faultCode, "wasm trap during parse: " ++ e.text⟩))
  if rc ≠ 0 then Program.throw (.parse (.fromCode rc))
  copyOut

/-- `parse`. -/
def parse (host : Host) (source : Text) (supply : Supply) : Wasm (List UInt32) := fun s =>
  if s.disposed then (.error (.state "WasmParseBackend used after dispose"), s)
  else
    match validate source with
    | some e => (.error (.parse e), s)
    | none => (do
        if s.entered then instantiate host supply.first
        Program.modify fun s => { s with entered := true }
        finally_ host.compiler (parseEntered host source supply)
          fun s => { s with entered := false } : Wasm (List UInt32)) { s with exhausted := false }

/-- What `dispose` frees: the buffers of an instance that a trap has left go with its memory. -/
def freeBuffers : Wasm Unit := fun s =>
  if s.entered then (.ok (), s)
  else (do
    free s.input s.inputCapacity
    free s.outCell 16 : Wasm Unit) s

/-- `dispose`. -/
def dispose : Wasm Unit := fun s =>
  if s.disposed then (.ok (), s)
  else (do
    Program.modify fun s => { s with disposed := true }
    freeBuffers
    Program.modify fun s => { s with wasm := none } : Wasm Unit) s

/-! ## What a call does to the memory -/

/-- The memory between two calls: the instance has not trapped, and holds the input and the cell, and
    nothing else. -/
structure Ready (s : WasmBackend) (w : Instance) : Prop where
  wasm : s.wasm = some w
  running : w.trapped = false
  holds : w.blocks.Holds [s.outCell, s.input]
  apart : s.outCell ≠ s.input
  outCell : ∃ x, w.blocks s.outCell = some ⟨4, x⟩
  input : ∃ bs, w.blocks s.input = some ⟨wordsOf s.inputCapacity, .bytes bs⟩
  capacity : s.inputCapacity < 2 ^ 32

/-- What a part of a call leaves alone. -/
structure Kept (s s' : WasmBackend) : Prop where
  misused : s'.misused = s.misused
  disposed : s'.disposed = s.disposed
  entered : s'.entered = s.entered

theorem Kept.trans {s₁ s₂ s₃ : WasmBackend} (h : Kept s₁ s₂) (h' : Kept s₂ s₃) : Kept s₁ s₃ :=
  ⟨h'.misused.trans h.misused, h'.disposed.trans h.disposed, h'.entered.trans h.entered⟩

variable {host : Host} {s : WasmBackend} {w : Instance}

/-- A call runs in the instance there is. -/
theorem call_eq {α : Type} {f : Blocks Content → Wasm α} (hw : s.wasm = some w)
    (hrunning : w.trapped = false) : call f s = f w.blocks s := by
  rw [call, hw]
  dsimp only
  rw [hrunning]
  rfl

/-- What the state is where a call into the instance has trapped for want of memory. -/
def outOfMemory (s : WasmBackend) (w : Instance) : WasmBackend :=
  { s with wasm := some { w with trapped := true }, exhausted := true }

/-- A trap leaves the instance trapped, and its memory counted as exhausted. -/
theorem exhausts_eq {α : Type} (hw : s.wasm = some w) :
    (exhausts : Wasm α) s = (.error (.trap "RuntimeError: unreachable"), outOfMemory s w) := by
  rw [exhausts, traps, outOfMemory, hw]
  rfl

/-- A call leaves its blocks in the instance. -/
theorem leaves_eq (b : Blocks Content) (hw : s.wasm = some w) :
    leaves b s = (.ok (), { s with wasm := some { w with blocks := b } }) := by
  rw [leaves, Program.modify_apply, hw]
  rfl

/-- An allocation takes a free block, or traps. -/
theorem alloc_eq (len : Nat) (at_ : Option Nat) (hw : s.wasm = some w)
    (hrunning : w.trapped = false) :
    (∃ a, at_ = some a ∧ w.blocks a = none ∧ alloc len at_ s = (.ok a, { s with
      wasm := some { w with blocks := w.blocks.alloc a (wordsOf len) (.bytes []) } })) ∨
    (∀ a, at_ = some a → w.blocks a ≠ none) ∧
      alloc len at_ s = (.error (.trap "RuntimeError: unreachable"), outOfMemory s w) := by
  rw [alloc, call_eq hw hrunning]
  cases hat : at_.filter fun a => (w.blocks a).isNone with
  | none =>
    refine Or.inr ⟨fun a ha hfree => ?_, exhausts_eq hw⟩
    rw [ha, Option.filter_some_pos (by rw [hfree]; rfl)] at hat
    cases hat
  | some a =>
    obtain ⟨ha, hfree⟩ := Option.filter_eq_some_iff.1 hat
    exact Or.inl ⟨a, ha, Option.isNone_iff_eq_none.1 hfree, Program.bind_ok (leaves_eq _ hw)⟩

/-- A block that was allocated is freed. -/
theorem free_eq {ptr len : Nat} {k : Block Content} (hw : s.wasm = some w)
    (hrunning : w.trapped = false) (hblock : w.blocks ptr = some k)
    (hlength : k.length = wordsOf len) :
    free ptr len s = (.ok (), { s with wasm := some { w with blocks := w.blocks.drop ptr } }) := by
  rw [free, call_eq hw hrunning, Blocks.free_eq hblock hlength]
  exact leaves_eq _ hw

/-- The buffers are taken, or the memory is exhausted. -/
theorem takeBuffers_spec (r : Rebuilt) (hw : s.wasm = some {}) :
    ∃ out s', takeBuffers r s = (out, s') ∧ Kept s s' ∧
      ((out = .ok () ∧ s'.exhausted = s.exhausted ∧ ∃ w, Ready s' w) ∨
        s'.exhausted = true ∧ ¬r.Builds ∧ ∃ text, out = .error (.trap text)) := by
  rcases alloc_eq 16 r.outCell hw rfl with ⟨o, ho, -, hcell⟩ | ⟨hfull, hcell⟩
  · have hcells : (Blocks.empty.alloc o (wordsOf 16) (Content.bytes [])).Holds [o] :=
      Blocks.holds_empty.alloc
    rw [takeBuffers, Program.bind_ok hcell, Program.bind_ok (Program.modify_apply _ _)]
    rcases @alloc_eq { s with
      wasm := some ⟨Blocks.empty.alloc o (wordsOf 16) (.bytes []), false⟩, outCell := o,
      inputCapacity := initialInputCapacity } _ initialInputCapacity r.input rfl rfl with
      ⟨i, hi, hfree, hinput⟩ | ⟨hfull, hinput⟩
    · have hne : i ≠ o := by
        rintro rfl
        cases Blocks.alloc_self.symm.trans hfree
      refine ⟨_, _, (Program.bind_ok hinput).trans (Program.modify_apply _ _), ⟨rfl, rfl, rfl⟩,
        Or.inl ⟨rfl, rfl, _, rfl, rfl, hcells.alloc.perm (List.Perm.swap _ _ _), hne.symm,
          ⟨.bytes [], ?_⟩, ⟨[], Blocks.alloc_self⟩,
          show initialInputCapacity < 2 ^ 32 by decide⟩⟩
      exact (Blocks.alloc_of_ne hne.symm).trans Blocks.alloc_self
    · refine ⟨_, _, Program.bind_error hinput, ⟨rfl, rfl, rfl⟩, Or.inr ⟨rfl, ?_, _, rfl⟩⟩
      rintro ⟨-, o', i, ho', hi, hne⟩
      obtain rfl : o = o' := Option.some_inj.1 (ho.symm.trans ho')
      refine hfull i hi ((Blocks.alloc_of_ne hne).trans rfl)
  · refine ⟨_, _, Program.bind_error hcell, ⟨rfl, rfl, rfl⟩, Or.inr ⟨rfl, ?_, _, rfl⟩⟩
    rintro ⟨-, o, i, ho, -⟩
    exact hfull o ho rfl

/-- An instance is made with its buffers, or the memory is exhausted. -/
theorem instantiate_spec (hhost : host.Compatible) (r : Rebuilt) :
    ∃ out s', instantiate host r s = (out, s') ∧ Kept s s' ∧
      ((out = .ok () ∧ s'.exhausted = s.exhausted ∧ ∃ w, Ready s' w) ∨
        s'.exhausted = true ∧ ¬r.Builds ∧ ∃ e, out = .error e ∧
          (r.instantiates = true → ∃ text, e = .trap text)) := by
  rw [instantiate]
  cases hinst : r.instantiates with
  | false =>
    refine ⟨_, _, rfl, ⟨rfl, rfl, rfl⟩, Or.inr ⟨rfl, fun hbuilds => ?_, _, rfl, nofun⟩⟩
    rw [hbuilds.1] at hinst
    cases hinst
  | true =>
    obtain ⟨out, s', heq, hkept, hend⟩ := @takeBuffers_spec { s with wasm := some {} } r rfl
    have hversion : ¬host.version ≠ RenderModelSchema.version := fun h => h hhost
    refine ⟨out, s', ?_, ⟨hkept.misused, hkept.disposed, hkept.entered⟩,
      hend.imp_right fun ⟨hexhausted, hnot, text, hout⟩ =>
        ⟨hexhausted, hnot, _, hout, fun _ => ⟨text, rfl⟩⟩⟩
    rw [if_neg hversion]
    exact heq

/-- What comes of a trap, where it is caught: the instance is built again, and the trap is reported. -/
theorem rebuilds_spec {α : Type} (hhost : host.Compatible) {supply : Supply}
    (hsupply : supply.Rebuilds host) (message : String) :
    ∃ e s', (do
        instantiate host supply.rebuilt
        Program.throw (.parse ⟨ParseException.faultCode, message⟩) : Wasm α) s = (.error e, s') ∧
      Kept s s' ∧
      ((s'.exhausted = s.exhausted ∧ e = .parse ⟨ParseException.faultCode, message⟩ ∧
        ∃ w, Ready s' w) ∨ s'.exhausted = true ∧ host.compiler.catches e = false) := by
  obtain ⟨out, s', heq, hkept, ⟨rfl, hsame, hready⟩ | ⟨hexhausted, hnot, e, rfl, htrap⟩⟩ :=
    @instantiate_spec host s hhost supply.rebuilt
  · exact ⟨_, s', Program.bind_ok heq, hkept, Or.inl ⟨hsame, rfl, hready⟩⟩
  · obtain ⟨hcompiler, hinst⟩ := hsupply.resolve_left hnot
    obtain ⟨text, rfl⟩ := htrap hinst
    refine ⟨_, s', Program.bind_error heq, hkept, Or.inr ⟨hexhausted, ?_⟩⟩
    rw [hcompiler]
    rfl

/-- A trap in a call that is contained is an error that handlers see. -/
theorem contained_trap {α : Type} {m : Wasm α} {s' : WasmBackend} {text : String}
    (h : m s = (.error (.trap text), s')) :
    ∃ e, contained host.compiler m s = (.error e, s') ∧ host.compiler.catches e = true := by
  rw [contained, h]
  cases host.compiler <;> exact ⟨_, rfl, rfl⟩

/-- What does not throw is not contained. -/
theorem contained_ok {α : Type} {m : Wasm α} {s' : WasmBackend} {a : α} (h : m s = (.ok a, s')) :
    contained host.compiler m s = (.ok a, s') := by
  rw [contained, h]

/-- What does not throw is not caught. -/
theorem catching_ok {α : Type} {m : Wasm α} {handler : Unwound → Wasm α} {s' : WasmBackend} {a : α}
    (h : m s = (.ok a, s')) : catching host.compiler m handler s = (.ok a, s') := by
  rw [catching, h]

/-- What the compiler catches is handled. -/
theorem catching_error {α : Type} {m : Wasm α} {handler : Unwound → Wasm α} {s' : WasmBackend}
    {e : Unwound} (h : m s = (.error e, s')) (hcatches : host.compiler.catches e = true) :
    catching host.compiler m handler s = handler e s' := by
  rw [catching, h]
  dsimp only
  rw [if_pos hcatches]

/-- What a part of `_parse` comes to where it does not return: the memory ran out and that is
    reported, with the memory as it is between two calls, or no handler saw a trap. -/
inductive Fails (host : Host) (e : Unwound) (s' : WasmBackend) : Prop
  | reported (message : String) (error : e = .parse ⟨ParseException.faultCode, message⟩)
      (ready : ∃ w, Ready s' w)
  | unseen (trap : host.compiler.catches e = false)

/-- There is room for a source, or the memory is exhausted, with an instance or without. -/
theorem grow_spec (hhost : host.Compatible) {source : Text} {supply : Supply}
    (hsupply : supply.Rebuilds host) (hsource : source.length * 6 < 2 ^ 32) (hs : Ready s w) :
    ∃ out s', grow host source supply s = (out, s') ∧ Kept s s' ∧
      ((out = .ok () ∧ s'.exhausted = s.exhausted ∧ source.length * 3 ≤ s'.inputCapacity ∧
          ∃ w, Ready s' w) ∨
        ∃ e, out = .error e ∧ s'.exhausted = true ∧ Fails host e s') := by
  rw [grow]
  -- A longer source takes a larger input and frees the old one; a trap of the allocation is caught,
  -- and reported by another instance.
  split_ifs with hlong
  · rcases alloc_eq (source.length * 6) supply.grown hs.wasm hs.running with
      ⟨a, -, hfree, hgrown⟩ | ⟨-, hgrown⟩
    · obtain ⟨x, hcell⟩ := hs.outCell
      obtain ⟨bs, hinput⟩ := hs.input
      have hcell_ne : s.outCell ≠ a := by
        rintro rfl
        cases hfree.symm.trans hcell
      have hinput_ne : s.input ≠ a := by
        rintro rfl
        cases hfree.symm.trans hinput
      have hfreed := @free_eq { s with wasm := some { w with
        blocks := w.blocks.alloc a (wordsOf (source.length * 6)) (.bytes []) } } _ s.input
        s.inputCapacity _ rfl hs.running ((Blocks.alloc_of_ne hinput_ne).trans hinput) rfl
      refine ⟨_, _, catching_ok ((Program.bind_ok (contained_ok hgrown)).trans
        ((Program.bind_ok hfreed).trans (Program.modify_apply _ _))), ⟨rfl, rfl, rfl⟩,
        Or.inl ⟨rfl, rfl, Nat.mul_le_mul_left _ (by decide), _, rfl, hs.running, ?_, hcell_ne,
          ⟨x, ?_⟩, ⟨[], ?_⟩, hsource⟩⟩
      · -- The old input is the one block that goes.
        have hthree : [a, s.outCell, s.input].Perm [s.input, s.outCell, a] :=
          List.reverse_perm [s.input, s.outCell, a]
        refine (hs.holds.alloc.perm hthree).drop fun hmem => ?_
        rcases List.mem_cons.1 hmem with heq | hmem
        · exact hs.apart heq.symm
        · exact hinput_ne (List.mem_singleton.1 hmem)
      · exact (Blocks.drop_of_ne hs.apart).trans ((Blocks.alloc_of_ne hcell_ne).trans hcell)
      · exact (Blocks.drop_of_ne hinput_ne.symm).trans Blocks.alloc_self
    · obtain ⟨e, hcontained, hcatches⟩ := @contained_trap host _ _ _ _ _ hgrown
      obtain ⟨e', s', heq, hkept, hend⟩ := @rebuilds_spec host (outOfMemory s w) Unit hhost supply
        hsupply ("wasm trap allocating parser input: " ++ e.text)
      refine ⟨_, s', (catching_error (Program.bind_error hcontained) hcatches).trans heq,
        ⟨hkept.misused, hkept.disposed, hkept.entered⟩, Or.inr ⟨e', rfl, ?_⟩⟩
      rcases hend with ⟨hsame, rfl, hready⟩ | ⟨hexhausted, hunseen⟩
      · exact ⟨hsame, .reported _ rfl hready⟩
      · exact ⟨hexhausted, .unseen hunseen⟩
  · exact ⟨_, s, rfl, ⟨rfl, rfl, rfl⟩, Or.inl ⟨rfl, rfl, Nat.le_of_not_lt hlong, w, hs⟩⟩

/-- The words of a length hold it. -/
theorem le_wordsOf {n : Nat} (h : n < 2 ^ 32) : n ≤ 4 * wordsOf n := by
  rw [wordsOf, Nat.mod_eq_of_lt h]
  omega

/-- Other blocks in the place of those of the instance. -/
theorem Ready.replaced {b : Blocks Content} (hs : Ready s w) (hholds : b.Holds [s.outCell, s.input])
    (hcell : ∃ x, b s.outCell = some ⟨4, x⟩)
    (hinput : ∃ bs, b s.input = some ⟨wordsOf s.inputCapacity, .bytes bs⟩) :
    Ready { s with wasm := some { w with blocks := b } } { w with blocks := b } :=
  ⟨rfl, hs.running, hholds, hs.apart, hcell, hinput, hs.capacity⟩

/-- A source with room for it is written as UTF-8 into the input. -/
theorem encode_spec {source : Text} (hvalid : validate source = none) (hs : Ready s w)
    (hroom : source.length * 3 ≤ s.inputCapacity) :
    ∃ s' w' tail, encode source s = (.ok (encodeUtf8 source).1.length, s') ∧ Kept s s' ∧
      s'.exhausted = s.exhausted ∧ Ready s' w' ∧
      w'.blocks s'.input =
        some ⟨wordsOf s'.inputCapacity, .bytes ((encodeUtf8 source).1 ++ tail)⟩ := by
  obtain ⟨x, hcell⟩ := hs.outCell
  obtain ⟨bs, hinput⟩ := hs.input
  have hread : (s.wasm.bind fun w => w.blocks s.input) =
      some ⟨wordsOf s.inputCapacity, .bytes bs⟩ := by
    rw [hs.wasm]
    exact hinput
  have hinto := ((encodeUtf8_agrees source).2.2.2 hvalid).2 _ (Nat.mul_comm 3 _ ▸ hroom)
  -- What was there before stays behind what is written.
  obtain ⟨b, hb⟩ : ∃ b, b = w.blocks.write s.input fun _ =>
    .bytes ((encodeUtf8 source).1 ++ bs.drop (encodeUtf8 source).1.length) := ⟨_, rfl⟩
  have hblock : b s.input = some ⟨wordsOf s.inputCapacity,
      .bytes ((encodeUtf8 source).1 ++ bs.drop (encodeUtf8 source).1.length)⟩ :=
    hb ▸ Blocks.write_self hinput
  have hcell' : b s.outCell = some ⟨4, x⟩ := hb ▸ (Blocks.write_of_ne hs.apart).trans hcell
  refine ⟨{ s with wasm := some { w with blocks := b } }, _, _, ?_, ⟨rfl, rfl, rfl⟩, rfl,
    hs.replaced (hb ▸ hs.holds.write) ⟨x, hcell'⟩ ⟨_, hblock⟩, hblock⟩
  rw [encode, hread]
  dsimp only
  rw [hinto, if_pos (le_wordsOf hs.capacity), hs.wasm, hb]
  exact if_neg fun hne => hne rfl

/-- What is left of a call of `flark_parse` that did not trap: the cell is written, and a model is in
    a block of its own. -/
theorem callParse_spec {bytes tail : List UInt8} (model : Option Nat) (hs : Ready s w)
    (hinput : w.blocks s.input = some ⟨wordsOf s.inputCapacity, .bytes (bytes ++ tail)⟩) :
    (∃ s', callParse host s.input bytes.length s.outCell model s =
        (.error (.trap "RuntimeError: unreachable"), s') ∧ Kept s s' ∧
        (s'.exhausted = true ∨ s'.exhausted = s.exhausted ∧
          flarkParse host.extract bytes = .error panicCode)) ∨
    (∃ s' w' code, callParse host s.input bytes.length s.outCell model s = (.ok code, s') ∧
        Kept s s' ∧ s'.exhausted = s.exhausted ∧ Ready s' w' ∧ code ≠ 0 ∧
        flarkParse host.extract bytes = .error code) ∨
    ∃ s' w' a ws, callParse host s.input bytes.length s.outCell model s = (.ok 0, s') ∧
      Kept s s' ∧ s'.exhausted = s.exhausted ∧ flarkParse host.extract bytes = .ok ws ∧
      s'.wasm = some w' ∧ w'.trapped = false ∧
      w'.blocks s'.outCell = some ⟨4, .cell a (4 * ws.length)⟩ ∧
      w'.blocks a = some ⟨ws.length, .words ws⟩ ∧ 4 * ws.length < 2 ^ 32 ∧
      Ready { s' with wasm := some { w' with blocks := w'.blocks.drop a } }
        { w' with blocks := w'.blocks.drop a } := by
  obtain ⟨x, hcell⟩ := hs.outCell
  have hfits : ¬((4 : Nat) < 3 ∨ (bytes ++ tail).length < bytes.length) := by
    rw [List.length_append]
    omega
  -- The cell is cleared before anything can go wrong.
  obtain ⟨b, hb⟩ : ∃ b, b = w.blocks.write s.outCell fun _ => .cell 0 0 := ⟨_, rfl⟩
  have hcleared := leaves_eq b hs.wasm
  have hcell' : b s.outCell = some ⟨4, .cell 0 0⟩ := hb ▸ Blocks.write_self hcell
  have hinput' : b s.input = some ⟨wordsOf s.inputCapacity, .bytes (bytes ++ tail)⟩ :=
    hb ▸ (Blocks.write_of_ne hs.apart.symm).trans hinput
  have hholds : b.Holds [s.outCell, s.input] := hb ▸ hs.holds.write
  rw [callParse, call_eq hs.wasm hs.running, hinput, hcell]
  dsimp only
  rw [if_neg hfits, ← hb, Program.bind_ok hcleared, List.take_left]
  cases hmodel : model.filter fun a => (b a).isNone with
  | none => exact Or.inl ⟨_, exhausts_eq rfl, ⟨rfl, rfl, rfl⟩, Or.inl rfl⟩
  | some a =>
    have hfree := Option.isNone_iff_eq_none.1 (Option.filter_eq_some_iff.1 hmodel).2
    dsimp only
    cases hparse : flarkParse host.extract bytes with
    | error code =>
      dsimp only
      split_ifs with hpanic
      · subst hpanic
        exact Or.inl ⟨_, rfl, ⟨rfl, rfl, rfl⟩, Or.inr ⟨rfl, rfl⟩⟩
      · exact Or.inr (Or.inl ⟨_, _, code, rfl, ⟨rfl, rfl, rfl⟩, rfl,
          hs.replaced hholds ⟨_, hcell'⟩ ⟨_, hinput'⟩, flarkParse_ne_zero hparse, rfl⟩)
    | ok ws =>
      have hcell_ne : s.outCell ≠ a := by
        rintro rfl
        cases hfree.symm.trans hcell'
      have hinput_ne : s.input ≠ a := by
        rintro rfl
        cases hfree.symm.trans hinput'
      obtain ⟨b', hb'⟩ : ∃ b', b' = (b.alloc a ws.length (.words ws)).write s.outCell fun _ =>
        .cell a (4 * ws.length) := ⟨_, rfl⟩
      have hwritten : b' s.outCell = some ⟨4, .cell a (4 * ws.length)⟩ :=
        hb' ▸ Blocks.write_self ((Blocks.alloc_of_ne hcell_ne).trans hcell')
      have hwords : b' a = some ⟨ws.length, .words ws⟩ :=
        hb' ▸ (Blocks.write_of_ne hcell_ne.symm).trans Blocks.alloc_self
      have hread : b' s.input = some ⟨wordsOf s.inputCapacity, .bytes (bytes ++ tail)⟩ :=
        hb' ▸ (Blocks.write_of_ne hs.apart.symm).trans ((Blocks.alloc_of_ne hinput_ne).trans hinput')
      have hthree : b'.Holds [a, s.outCell, s.input] := hb' ▸ hholds.alloc.write
      refine Or.inr (Or.inr ⟨{ s with wasm := some { w with blocks := b' } }, { w with blocks := b' },
        a, ws, ?_, ⟨rfl, rfl, rfl⟩, rfl, rfl, rfl, hs.running, hwritten, hwords,
        length_of_flarkParse hparse, hs.replaced (hthree.drop fun hmem => ?_)
          ⟨_, (Blocks.drop_of_ne hcell_ne).trans hwritten⟩
          ⟨_, (Blocks.drop_of_ne hinput_ne).trans hread⟩⟩)
      · rw [hb']
        exact Program.bind_ok (@leaves_eq { s with wasm := some { w with blocks := b } }
          { w with blocks := b } _ rfl)
      · rcases List.mem_cons.1 hmem with heq | hmem
        · exact hcell_ne heq.symm
        · exact hinput_ne (List.mem_singleton.1 hmem).symm

/-- The answer is copied out and its buffer freed. -/
theorem copyOut_eq {a n : Nat} {ws : List UInt32} (hw : s.wasm = some w)
    (hrunning : w.trapped = false) (hcell : w.blocks s.outCell = some ⟨4, .cell a n⟩)
    (hwords : w.blocks a = some ⟨ws.length, .words ws⟩) (hn : n = 4 * ws.length)
    (hlength : n < 2 ^ 32) :
    copyOut s = (.ok ws, { s with wasm := some { w with blocks := w.blocks.drop a } }) := by
  have hread : (s.wasm.bind fun w => w.blocks s.outCell) = some ⟨4, .cell a n⟩ := by
    rw [hw]
    exact hcell
  have hread' : (s.wasm.bind fun w => w.blocks a) = some ⟨ws.length, .words ws⟩ := by
    rw [hw]
    exact hwords
  have hwordsOf : ws.length = wordsOf n := by
    rw [wordsOf, Nat.mod_eq_of_lt hlength, hn]
    omega
  have hall : ws.take (n / 4) = ws := by
    rw [hn, Nat.mul_div_cancel_left _ (by decide), List.take_length]
  rw [copyOut, hread]
  dsimp only
  rw [hread']
  dsimp only
  rw [Program.bind_ok (free_eq hw hrunning hwords hwordsOf), hall]
  rfl

/-- The codes that the host tells apart: what it returned, or the code of what it threw. -/
def outcome : Except Unwound (List UInt32) → Option (Except Int (List UInt32))
  | .ok ws => some (.ok ws)
  | .error (.parse e) => some (.error e.code)
  | .error _ => none

/-- What a call of `_parse` comes to. -/
structure Answered (host : Host) (source : Text) (out : Except Unwound (List UInt32))
    (s' : WasmBackend) : Prop where
  /-- The memory is as it is between two calls, unless no handler saw a trap. -/
  ready : (∀ e, out = .error e → host.compiler.catches e = true) → ∃ w, Ready s' w
  /-- Where the memory sufficed, the answer is the one for the source. -/
  answer : s'.exhausted = false → outcome out = some (parserAnswer host.extract source)
  /-- Where it did not, that is reported, or no handler saw the trap. -/
  exhausted : s'.exhausted = true → ∃ e, out = .error e ∧ Fails host e s'

/-- A failure of exhausted memory is an answer of its own. -/
theorem Fails.answered {source : Text} {e : Unwound} {s' : WasmBackend} (h : Fails host e s')
    (hexhausted : s'.exhausted = true) :
    Answered host source (.error e) s' := by
  refine ⟨fun hcatches => ?_, fun hnot => ?_, fun _ => ⟨e, rfl, h⟩⟩
  · cases h with
    | reported message error ready => exact ready
    | unseen trap =>
      rw [hcatches e rfl] at trap
      cases trap
  · rw [hexhausted] at hnot
    cases hnot

/-- A parse answers, throws what the parser refuses, or has exhausted the memory: one case for each
    of its steps. -/
theorem parseEntered_spec (hhost : host.Compatible) {source : Text} {supply : Supply}
    (hsupply : supply.Rebuilds host) (hsource : source.length * 6 < 2 ^ 32)
    (hvalid : validate source = none) (hexhausted : s.exhausted = false) (hs : Ready s w) :
    ∃ out s', parseEntered host source supply s = (out, s') ∧ Kept s s' ∧
      Answered host source out s' := by
  have hanswer : parserAnswer host.extract source =
      flarkParse host.extract (encodeUtf8 source).1 := by
    rw [parserAnswer, hvalid]
  -- Room is made, the source is encoded and the parser is called, which traps, refuses or answers.
  obtain ⟨out, s₁, hgrow, hkept₁, ⟨rfl, hsame₁, hroom, w₁, hs₁⟩ | ⟨e, rfl, hexhausted₁, hfails⟩⟩ :=
    @grow_spec host s w hhost source supply hsupply hsource hs
  · obtain ⟨s₂, w₂, tail, hencode, hkept₂, hsame₂, hs₂, hinput⟩ := encode_spec hvalid hs₁ hroom
    have hkept := hkept₁.trans hkept₂
    have hexhausted₂ : s₂.exhausted = false := hsame₂.trans (hsame₁.trans hexhausted)
    have hstart : ∀ out s', (catching host.compiler
        (contained host.compiler (callParse host s₂.input (encodeUtf8 source).1.length s₂.outCell
          supply.model))
        (fun e => do
          instantiate host supply.rebuilt
          Program.throw (.parse ⟨ParseException.faultCode, "wasm trap during parse: " ++ e.text⟩)) >>=
        fun rc => do
          if rc ≠ 0 then Program.throw (.parse (.fromCode rc))
          copyOut) s₂ = (out, s') → parseEntered host source supply s = (out, s') := by
      intro out s' h
      rw [parseEntered, Program.bind_ok hgrow, Program.bind_ok hencode,
        Program.bind_ok (Program.get_apply s₂)]
      exact h
    rcases callParse_spec supply.model hs₂ hinput with ⟨s₃, hcall, hkept₃, hwhy⟩ |
        ⟨s₃, w₃, code, hcall, hkept₃, hsame₃, hs₃, hcode, hparse⟩ |
        ⟨s₃, w₃, a, ws, hcall, hkept₃, hsame₃, hparse, hw₃, hrunning₃, hcell₃, hwords₃, hlength, hs₃⟩
    · -- The call trapped: for want of memory, or as the extraction panicked.
      obtain ⟨e, hcontained, hcatches⟩ := @contained_trap host _ _ _ _ _ hcall
      obtain ⟨e', s', heq, hkept₄, hend⟩ := @rebuilds_spec host s₃ Int hhost supply hsupply
        ("wasm trap during parse: " ++ e.text)
      refine ⟨_, s', hstart _ _ (Program.bind_error ((catching_error hcontained hcatches).trans heq)),
        (hkept.trans hkept₃).trans hkept₄, ?_⟩
      rcases hend with ⟨hsame, rfl, hready⟩ | ⟨hexhausted', hunseen⟩
      · rcases hwhy with hexhausted₃ | ⟨hsame₃, hpanic⟩
        · exact (Fails.reported _ rfl hready).answered (hsame.trans hexhausted₃)
        · have hfalse := hsame.trans (hsame₃.trans hexhausted₂)
          refine ⟨fun _ => hready, fun _ => ?_, fun htrue => ?_⟩
          · rw [hanswer, hpanic]
            rfl
          · rw [hfalse] at htrue
            cases htrue
      · exact (Fails.unseen hunseen).answered hexhausted'
    · have hfalse := hsame₃.trans hexhausted₂
      refine ⟨.error (.parse (.fromCode code)), s₃, hstart _ _ ?_, hkept.trans hkept₃,
        fun _ => ⟨w₃, hs₃⟩, fun _ => ?_, fun htrue => ?_⟩
      · rw [Program.bind_ok (catching_ok (contained_ok hcall)), if_pos hcode]
        rfl
      · rw [hanswer, hparse]
        rfl
      · rw [hfalse] at htrue
        cases htrue
    · have hfalse := hsame₃.trans hexhausted₂
      refine ⟨.ok ws, { s₃ with wasm := some { w₃ with blocks := w₃.blocks.drop a } },
        hstart _ _ ?_, (hkept.trans hkept₃).trans ⟨rfl, rfl, rfl⟩,
        fun _ => ⟨_, hs₃⟩, fun _ => ?_, fun htrue => ?_⟩
      · rw [Program.bind_ok (catching_ok (contained_ok hcall)), if_neg fun h => h rfl]
        exact copyOut_eq hw₃ hrunning₃ hcell₃ hwords₃ rfl hlength
      · rw [hanswer, hparse]
        rfl
      · rw [hfalse] at htrue
        cases htrue
  · refine ⟨_, s₁, ?_, hkept₁, hfails.answered hexhausted₁⟩
    rw [parseEntered, Program.bind_error hgrow]

/-! ## Runs -/

/-- What holds of a parser between two calls. -/
structure Invariant (s : WasmBackend) : Prop where
  unused : s.misused = false
  /-- The instance is let go with the parser. -/
  gone : s.disposed = true → s.wasm = none
  /-- An instance that a call has not left in its middle holds what the parser keeps. -/
  ready : s.disposed = false → s.entered = false → ∃ w, Ready s w

/-- `WasmParseBackend._`. -/
def create (host : Host) (r : Rebuilt) : Option WasmBackend :=
  match instantiate host r {} with
  | (.ok _, s) => some s
  | (.error _, _) => none

inductive Event
  | parse (source : Text) (supply : Supply)
  | dispose

/-- The parser after a call. -/
def step (host : Host) (s : WasmBackend) : Event → Option WasmBackend
  | .parse source supply => some (parse host source supply s).2
  | .dispose => some (dispose s).2

/-- The conditions on a call: the length that is asked for its source is one of 32 bits, and an
    instance that has trapped can be replaced (`Supply.Rebuilds`). -/
def Event.Sane (host : Host) : Event → Prop
  | .parse source supply => supply.Rebuilds host ∧ source.length * 6 < 2 ^ 32
  | .dispose => True

/-- What `parse` comes to, for a parser that is not disposed. -/
structure Parsed (host : Host) (source : Text) (out : Except Unwound (List UInt32))
    (s' : WasmBackend) : Prop where
  /-- Text that UTF-8 cannot hold is refused as it is checked. -/
  refused : ∀ e, validate source = some e → out = .error (.parse e)
  /-- Where the memory sufficed, the answer is the one for the source. -/
  answer : s'.exhausted = false → outcome out = some (parserAnswer host.extract source)
  /-- Where it did not, nothing is returned. -/
  exhausted : validate source = none → s'.exhausted = true → ∃ e, out = .error e

/-- An instance is as ready within a call. -/
theorem Ready.entered (hs : Ready s w) (b : Bool) : Ready { s with entered := b } w :=
  ⟨hs.wasm, hs.running, hs.holds, hs.apart, hs.outCell, hs.input, hs.capacity⟩

/-- The end of `parse`, over an instance that is not in the middle of a call. -/
theorem finally_spec (hhost : host.Compatible) {source : Text} {supply : Supply}
    (hsupply : supply.Rebuilds host) (hsource : source.length * 6 < 2 ^ 32)
    (hvalid : validate source = none) (hexhausted : s.exhausted = false)
    (hunused : s.misused = false) (hdisposed : s.disposed = false) (hs : Ready s w) :
    ∃ out s', finally_ host.compiler (parseEntered host source supply)
        (fun s => { s with entered := false }) { s with entered := true } = (out, s') ∧
      s'.Invariant ∧ Parsed host source out s' := by
  obtain ⟨out, s₁, heq, hkept, hready, hanswer, hfails⟩ :=
    @parseEntered_spec host { s with entered := true } w hhost source supply hsupply hsource hvalid
      hexhausted (hs.entered true)
  have hunused₁ : s₁.misused = false := hkept.misused.trans hunused
  have hopen : ¬s₁.disposed = true := by
    rw [hkept.disposed, hdisposed]
    exact Bool.false_ne_true
  have hrefused : ∀ e, validate source = some e → out = .error (.parse e) := by
    intro e he
    rw [hvalid] at he
    cases he
  have hparsed : Parsed host source out s₁ :=
    ⟨hrefused, hanswer, fun _ htrue => (hfails htrue).imp fun _ h => h.1⟩
  rw [finally_, heq]
  cases out with
  | ok ws =>
    obtain ⟨w₁, hs₁⟩ := hready nofun
    exact ⟨_, _, rfl, ⟨hunused₁, fun h => absurd h hopen, fun _ _ => ⟨w₁, hs₁.entered false⟩⟩,
      hparsed.refused, hparsed.answer, hparsed.exhausted⟩
  | error e =>
    dsimp only
    -- What the compiler does not catch leaves `entered` set, and nothing is asked of the instance.
    by_cases hcatches : host.compiler.catches e = true
    · obtain ⟨w₁, hs₁⟩ := hready fun e' he' => Except.error.inj he' ▸ hcatches
      rw [if_pos hcatches]
      exact ⟨_, _, rfl, ⟨hunused₁, fun h => absurd h hopen, fun _ _ => ⟨w₁, hs₁.entered false⟩⟩,
        hparsed.refused, hparsed.answer, hparsed.exhausted⟩
    · rw [if_neg hcatches]
      refine ⟨_, _, rfl, ⟨hunused₁, fun h => absurd h hopen, fun _ hentered => ?_⟩, hparsed⟩
      rw [hkept.entered] at hentered
      cases hentered

/-- A parse keeps the invariant, refused, answered or trapped. -/
theorem Invariant.parse (hhost : host.Compatible) {source : Text} {supply : Supply}
    (hsupply : supply.Rebuilds host) (hsource : source.length * 6 < 2 ^ 32) (hs : s.Invariant) :
    ∃ out s', parse host source supply s = (out, s') ∧ s'.Invariant ∧
      (s.disposed = true → out = .error (.state "WasmParseBackend used after dispose")) ∧
      (s.disposed = false → Parsed host source out s') := by
  rw [WasmBackend.parse]
  by_cases hdisposed : s.disposed = true
  · rw [if_pos hdisposed]
    exact ⟨_, s, rfl, hs, fun _ => rfl, fun h => absurd hdisposed (Bool.eq_false_iff.1 h)⟩
  have hopen : s.disposed = false := Bool.eq_false_iff.2 hdisposed
  rw [if_neg hdisposed]
  cases hvalid : validate source with
  | some e =>
    refine ⟨_, s, rfl, hs, fun h => absurd h hdisposed, fun _ => ⟨fun e' he' => ?_, fun _ => ?_,
      fun h => ?_⟩⟩
    · rw [hvalid] at he'
      rw [Option.some_inj.1 he']
    · rw [parserAnswer, hvalid]
      rfl
    · rw [hvalid] at h
      cases h
  | none =>
    dsimp only
    -- An instance that the last call was left in is replaced first.
    by_cases hentered : s.entered = true
    · rw [if_pos hentered]
      obtain ⟨out, s₁, heq, hkept, ⟨rfl, hsame, w, hs₁⟩ | ⟨hexhausted, -, e, rfl, -⟩⟩ :=
        @instantiate_spec host { s with exhausted := false } hhost supply.first
      · obtain ⟨out, s', hfinally, hinvariant, hparsed⟩ := @finally_spec host s₁ w hhost source supply
          hsupply hsource hvalid hsame (hkept.misused.trans hs.unused) (hkept.disposed.trans hopen)
          hs₁
        exact ⟨out, s', (Program.bind_ok heq).trans hfinally, hinvariant,
          fun h => absurd h hdisposed, fun _ => hparsed⟩
      · refine ⟨_, s₁, Program.bind_error heq, ⟨hkept.misused.trans hs.unused, fun h => ?_,
          fun _ h => ?_⟩, fun h => absurd h hdisposed, fun _ => ⟨fun e' he' => ?_, fun h => ?_,
          fun _ _ => ⟨e, rfl⟩⟩⟩
        · exact absurd (hkept.disposed.symm.trans h) hdisposed
        · -- The next call builds an instance before it calls into one.
          cases hentered.symm.trans (hkept.entered.symm.trans h)
        · rw [hvalid] at he'
          cases he'
        · cases hexhausted.symm.trans h
    · rw [if_neg hentered]
      obtain ⟨w, hready⟩ := hs.ready hopen (Bool.eq_false_iff.2 hentered)
      obtain ⟨out, s', hfinally, hinvariant, hparsed⟩ := @finally_spec host
        { s with exhausted := false } w hhost source supply hsupply hsource hvalid rfl hs.unused hopen
        ⟨hready.wasm, hready.running, hready.holds, hready.apart, hready.outCell, hready.input,
          hready.capacity⟩
      exact ⟨out, s', hfinally, hinvariant, fun h => absurd h hdisposed, fun _ => hparsed⟩

/-- What is freed is all that the instance holds. -/
theorem freeBuffers_eq (hentered : s.entered = false) (hs : Ready s w) :
    ∃ b : Blocks Content, b.Holds [] ∧
      freeBuffers s = (.ok (), { s with wasm := some { w with blocks := b } }) := by
  obtain ⟨x, hcell⟩ := hs.outCell
  obtain ⟨bs, hinput⟩ := hs.input
  have hfree := free_eq hs.wasm hs.running hinput rfl
  have hfree' := @free_eq { s with wasm := some { w with blocks := w.blocks.drop s.input } } _
    s.outCell 16 _ rfl hs.running ((Blocks.drop_of_ne hs.apart).trans hcell) rfl
  refine ⟨_, ((hs.holds.perm (List.Perm.swap _ _ _)).drop fun hmem => ?_).drop nofun,
    (if_neg (Bool.eq_false_iff.1 hentered)).trans ((Program.bind_ok hfree).trans hfree')⟩
  exact hs.apart (List.mem_singleton.1 hmem).symm

/-- Disposal keeps the invariant. -/
theorem Invariant.dispose (hs : s.Invariant) : (dispose s).2.Invariant := by
  rw [WasmBackend.dispose]
  split_ifs with hdisposed
  · exact hs
  · by_cases hentered : s.entered = true
    · have hnothing : freeBuffers { s with disposed := true } =
          (.ok (), { s with disposed := true }) :=
        if_pos hentered
      rw [Program.bind_ok (Program.modify_apply _ _), Program.bind_ok hnothing]
      exact ⟨hs.unused, fun _ => rfl, nofun⟩
    · have hidle : s.entered = false := Bool.eq_false_iff.2 hentered
      obtain ⟨w, hready⟩ := hs.ready (Bool.eq_false_iff.2 hdisposed) hidle
      obtain ⟨b, -, hall⟩ := @freeBuffers_eq { s with disposed := true } w hidle
        ⟨hready.wasm, hready.running, hready.holds, hready.apart, hready.outCell, hready.input,
          hready.capacity⟩
      rw [Program.bind_ok (Program.modify_apply _ _), Program.bind_ok hall]
      exact ⟨hs.unused, fun _ => rfl, nofun⟩

/-- No parser is created over a module that writes anything else. -/
theorem create_spec {r : Rebuilt} (hs : create host r = some s) :
    host.Compatible ∧ s.Invariant := by
  have hhost : host.Compatible := by
    by_contra hversion
    have hne : host.version ≠ RenderModelSchema.version := hversion
    rw [create, instantiate] at hs
    cases hinst : r.instantiates with
    | false =>
      rw [hinst] at hs
      cases hs
    | true =>
      rw [hinst, if_pos hne] at hs
      cases hs
  obtain ⟨out, s', heq, hkept, ⟨rfl, -, w, hready⟩ | ⟨-, -, e, rfl, -⟩⟩ :=
    @instantiate_spec host {} hhost r
  · rw [create, heq] at hs
    obtain rfl := Option.some_inj.1 hs
    refine ⟨hhost, hkept.misused, fun h => ?_, fun _ _ => ⟨w, hready⟩⟩
    cases hkept.disposed.symm.trans h
  · rw [create, heq] at hs
    cases hs

/-- A parser that hosts can bring about: one that was created, after calls that each meet the
    conditions of `Event.Sane`. -/
def Reached (host : Host) (s : WasmBackend) : Prop :=
  ∃ r s₀ events, create host r = some s₀ ∧ (∀ e ∈ events, Event.Sane host e) ∧
    Runs.run (step host) s₀ events = some s

/-- What is reached has the invariant. -/
theorem Reached.spec (hs : Reached host s) : host.Compatible ∧ s.Invariant := by
  obtain ⟨r, s₀, events, hcreate, hsane, hrun⟩ := hs
  obtain ⟨hhost, hstart⟩ := create_spec hcreate
  refine ⟨hhost, Runs.run_invariant_of (Q := Event.Sane host) ?_ hsane hrun hstart⟩
  rintro s e s' hsane hs hstep
  cases e with
  | parse source supply =>
    obtain rfl := Option.some_inj.1 hstep
    obtain ⟨out, s', heq, hinvariant, -⟩ := hs.parse hhost hsane.1 hsane.2
    rw [heq]
    exact hinvariant
  | dispose =>
    obtain rfl := Option.some_inj.1 hstep
    exact hs.dispose

/-- Between two calls of any run, the library was never called as it forbids: into an instance that
    has trapped, to free what is not held or is of another length, or to read or write past a block. An
    instance that no call has left in its middle holds the cell and the input, and nothing else. In
    each call, an instance that has trapped can be replaced, and the length that is asked for the
    source is one of 32 bits (`Event.Sane`). -/
theorem run_safe (hs : Reached host s) : s.Invariant := hs.spec.2

/-- A call answers for its own source, whatever was parsed, has trapped or could not be allocated
    before. Where the memory does not suffice it throws, and later calls go on. In this call and in
    those before it, an instance that has trapped can be replaced, and the length that is asked for the
    source is one of 32 bits. -/
theorem run_answers (hs : Reached host s) {source : Text} {supply : Supply}
    (hsupply : supply.Rebuilds host) (hsource : source.length * 6 < 2 ^ 32) :
    (s.disposed = true → (parse host source supply s).1 =
        .error (.state "WasmParseBackend used after dispose")) ∧
      (s.disposed = false →
        Parsed host source (parse host source supply s).1 (parse host source supply s).2) := by
  obtain ⟨hhost, hinvariant⟩ := hs.spec
  obtain ⟨out, s', heq, -, hclosed, hopen⟩ := hinvariant.parse hhost hsupply hsource
  rw [heq]
  exact ⟨hclosed, hopen⟩

/-- A parser that panics on sources of one byte. -/
def panicsOnOne : Host where
  compiler := .dart2wasm
  version := RenderModelSchema.version
  extract bs := if bs.length = 1 then .panics else .words [1, 2]

/-- Blocks at some addresses. -/
def supplied : Supply where
  first := ⟨true, some 8, some 16⟩
  grown := some 24
  model := some 32
  rebuilt := ⟨true, some 8, some 16⟩

theorem supplied_rebuilds : supplied.Rebuilds panicsOnOne := Or.inl ⟨rfl, 8, 16, rfl, rfl, by decide⟩

def created : WasmBackend := (create panicsOnOne supplied.first).getD {}

/-- The parser once it has trapped. -/
def trappedOnce : WasmBackend := (parse panicsOnOne [0x61] supplied created).2

/-- A backend is reached whose first parse trapped. -/
theorem reached_trappedOnce : Reached panicsOnOne trappedOnce :=
  ⟨supplied.first, created, [.parse [0x61] supplied], rfl,
    fun _ he => List.mem_singleton.1 he ▸ ⟨supplied_rebuilds, by decide⟩, rfl⟩

/-- It has built another instance and misused none. -/
theorem run_safe_trappedOnce : trappedOnce.misused = false ∧ trappedOnce.outCell = 8 :=
  ⟨(run_safe reached_trappedOnce).unused, by decide⟩

/-- Where there is no instance to replace one that has trapped, dart2js goes on with the old one. -/
example : (parse { panicsOnOne with compiler := .dart2js } [0x61, 0x62] supplied
    (parse { panicsOnOne with compiler := .dart2js } [0x61]
      { supplied with rebuilt := ⟨false, none, none⟩ } created).2).2.misused = true := by
  decide

/-- Its next parse is answered. -/
theorem run_answers_trappedOnce :
    (parse panicsOnOne [0x61, 0x62] supplied trappedOnce).2.exhausted = false ∧
      outcome (parse panicsOnOne [0x61, 0x62] supplied trappedOnce).1 =
        some (parserAnswer panicsOnOne.extract [0x61, 0x62]) := by
  have hopen : trappedOnce.disposed = false := by decide
  have hsuffices : (parse panicsOnOne [0x61, 0x62] supplied trappedOnce).2.exhausted = false := by
    decide
  have hparsed := (@run_answers panicsOnOne trappedOnce reached_trappedOnce [0x61, 0x62] supplied
    supplied_rebuilds (by decide)).2 hopen
  exact ⟨hsuffices, hparsed.answer hsuffices⟩

end WasmBackend

end Flark
