import Flark.Lib.Packing
import Flark.Schema
import Flark.Native.Records

/-!
# Encoding the model

`Extractor::encode` packs the internal records into the words of the published model:
UTF-16 offsets only, records of a fixed width, and one extras section for the values
that only some kinds carry. Content records are written in block order, so a block's
end where the next block's begin, and a run names the block that owns it only through
the first run of each block. A run whose hidden delimiters or whose distance to its
parent do not fit their fields takes the *wide* form: the fields are all ones and the
values are in the extras.

The loops over blocks and runs carry what they have written so far (`Packed`,
`PackedRuns`); what each writes in all is in `packBlocks_spec` and `packRuns_spec`, and
`firstRuns_eq` is the first run of every block.
-/

namespace Flark.Native

open Packing

/-- `u32` of a length or an index: `as u32`. -/
abbrev u32 (n : Nat) : UInt32 := n.toUInt32

/-- `&v[start..start + count]`, which panics when it is not inside `v`. -/
def slice {α : Type} (v : List α) (start count : Nat) : Option (List α) :=
  if start + count ≤ v.length then some ((v.drop start).take count) else none

/-! ## Blocks -/

/-- The end of the loop over the runs for block `b`: the runs left from the first that is
    not of an earlier block, and its index. -/
def skipRuns (b : Nat) : List RunRec → Nat → List RunRec × Nat
  | [], r => ([], r)
  | rec :: runs, r =>
    if rec.block.toNat < b then skipRuns b runs (r + 1) else (rec :: runs, r)

/-- The loop over the slots of `first_run`. -/
def firstRunsFrom : (blocks : List Nat) → (runs : List RunRec) → (r : Nat) → List UInt32
  | [], _, _ => []
  | b :: blocks, runs, r =>
    let (runs, r) := skipRuns b runs r
    u32 r :: firstRunsFrom blocks runs r

/-- `first_run`: block `b` owns the runs from its slot up to the next. -/
def firstRuns (runs : List RunRec) (nb : Nat) : List UInt32 :=
  firstRunsFrom (List.range (nb + 1)) runs 0

/-- What the kind of a block decides: the published flags and attribute, and the words it
    adds to the extras. -/
structure BlockFields where
  flags : UInt32
  attr : UInt32
  extra : List UInt32

/-- The `match` on the kind of a block. -/
def blockFields (li : LineIndex) (rec : BlockRec) : BlockFields :=
  let kind := rec.kind.toNat
  let u16 := fun b : UInt32 => li.u16 b.toNat
  if kind = BlockKind.codeBlock ∧ rec.flags &&& 1 ≠ 0 then
    ⟨rec.flags, rec.attr0, [u16 rec.attr1, u16 rec.attr2]⟩
  else if kind = BlockKind.list then
    ⟨rec.flags ||| (rec.attr0 &&& 1) <<< 1, rec.attr1, []⟩
  else if kind = BlockKind.item then
    ⟨rec.flags, rec.attr0, [rec.markerEndUtf16, u16 rec.attr1, u16 rec.attr2]⟩
  else if kind = BlockKind.table then
    ⟨rec.flags, rec.attr0, [rec.attr1]⟩
  else if kind = BlockKind.footnoteDefinition then
    ⟨rec.flags, rec.attr0, [u16 rec.attr1, u16 rec.attr2]⟩
  else ⟨rec.flags, rec.attr0, []⟩

/-- The words of a content record. -/
def contentWords (c : ContentRec) : List UInt32 :=
  [c.startUtf16, c.endUtf16, c.prefixStartUtf16, c.line ||| c.virtualLeadingSpaces <<< 30]

/-- `packing_overflow`: a content record whose line or virtual spaces do not fit. -/
def packingOverflow (content : List ContentRec) : Option String :=
  content.foldl
    (fun overflow c =>
      let line := c.line.toNat
      let virt := c.virtualLeadingSpaces.toNat
      if 0x3FFFFFFF < line ∨ 0x3 < virt then
        some s!"content line {line} with {virt} virtual spaces"
      else overflow)
    none

/-- What the loop over the blocks has written. -/
structure Packed where
  blocks : List UInt32
  content : List UInt32
  extras : List UInt32

/-- The words of a block record, with `contentRecords` content records and `extraWords` words
    of extras written before it. -/
def blockWords (li : LineIndex) (firstRun : UInt32) (contentRecords extraWords : Nat)
    (rec : BlockRec) : List UInt32 :=
  let fields := blockFields li rec
  let extra := if fields.extra.isEmpty then u32 RenderModelSchema.noExtra else u32 extraWords
  [rec.kind ||| fields.flags <<< 8, rec.parent, rec.startUtf16, rec.endUtf16, rec.firstLine,
    rec.lineCount, u32 contentRecords, firstRun, fields.attr, extra]

/-- One turn of the loop over the blocks. -/
def packBlock (ex : Extractor) (packed : Packed) (rec : BlockRec) (firstRun : UInt32) :
    Option Packed := do
  let records ← slice ex.content rec.contentOffset.toNat rec.contentCount.toNat
  return {
    blocks := packed.blocks ++ blockWords ex.li firstRun
      (packed.content.length / RenderModelSchema.contentWords) packed.extras.length rec
    content := packed.content ++ records.flatMap contentWords
    extras := packed.extras ++ (blockFields ex.li rec).extra }

/-- The loop over the blocks. -/
def packBlocks (ex : Extractor) :
    (packed : Packed) → (blocks : List BlockRec) → (firstRuns : List UInt32) → Option Packed
  | packed, rec :: blocks, firstRun :: firstRuns => do
    let packed ← packBlock ex packed rec firstRun
    packBlocks ex packed blocks firstRuns
  | packed, _, _ => some packed

/-! ## Runs -/

/-- `WIDE`. -/
def wide : UInt32 := 0xFFFF

/-- The distance of run `i` back to its parent, zero for none. -/
def parentDistance (i : Nat) (rec : RunRec) : UInt32 :=
  if rec.parent = noParent then 0 else u32 i - rec.parent

/-- A field of run `i` does not fit the narrow form. -/
def isWide (i : Nat) (rec : RunRec) : Bool :=
  wide ≤ rec.contentStartUtf16 - rec.startUtf16 || wide ≤ rec.endUtf16 - rec.contentEndUtf16 ||
    wide ≤ parentDistance i rec

/-- The published flags of run `i`. -/
def runFlags (i : Nat) (rec : RunRec) : UInt32 :=
  let flags := (rec.flags &&& (3 : UInt32)) ||| (rec.flags >>> 8 &&& (1 : UInt32)) <<< (2 : UInt32)
  if isWide i rec then flags ||| (1 : UInt32) <<< (3 : UInt32) else flags

/-- The words the kind of a run adds to the extras. -/
def runKindExtra (li : LineIndex) (rec : RunRec) : List UInt32 :=
  let kind := rec.kind.toNat
  let u16 := fun b : UInt32 => li.u16 b.toNat
  if kind = RunKind.link ∨ kind = RunKind.image ∨ kind = RunKind.autolink then
    [u16 rec.aux0, u16 rec.aux1, u16 rec.aux2, u16 rec.aux3, rec.destinationOffset,
      rec.destinationLength, rec.titleOffset, rec.titleLength]
  else if kind = RunKind.replacement then [rec.aux0, rec.aux1]
  else if kind = RunKind.code ∧ rec.flags &&& 2 ≠ 0 then [rec.aux2, rec.aux3]
  else if kind = RunKind.footnoteRef then [u16 rec.aux0, u16 rec.aux1]
  else []

/-- The words run `i` adds to the extras. -/
def runExtra (li : LineIndex) (i : Nat) (rec : RunRec) : List UInt32 :=
  (if isWide i rec then [rec.contentStartUtf16, rec.contentEndUtf16, rec.parent] else []) ++
    runKindExtra li rec

/-- The words of the record of run `i`. -/
def runWords (i : Nat) (rec : RunRec) : List UInt32 :=
  let before := if isWide i rec then wide else rec.contentStartUtf16 - rec.startUtf16
  let after := if isWide i rec then wide else rec.endUtf16 - rec.contentEndUtf16
  let distance := if isWide i rec then wide else parentDistance i rec
  [rec.startUtf16, rec.endUtf16, before ||| after <<< 16,
    rec.kind ||| runFlags i rec <<< 8 ||| distance <<< 16]

/-- The hidden widths and the parent distance of a narrow run fit their fields. -/
theorem narrow_lt {i : Nat} {r : RunRec} (hnarrow : isWide i r = false) :
    (r.contentStartUtf16 - r.startUtf16).toNat < 0xFFFF ∧
      (r.endUtf16 - r.contentEndUtf16).toNat < 0xFFFF ∧ (parentDistance i r).toNat < 0xFFFF := by
  simp only [isWide, Bool.or_eq_false_iff, decide_eq_false_iff_not, UInt32.le_iff_toNat_le,
    Nat.not_le] at hnarrow
  exact ⟨hnarrow.1.1, hnarrow.1.2, hnarrow.2⟩

/-- The published flags of a run: its first two, whether it spans lines, and the form. -/
theorem runFlags_toNat (i : Nat) (rec : RunRec) :
    (runFlags i rec).toNat = rec.flags.toNat % 4 + rec.flags.toNat / 256 % 2 * 4 +
      if isWide i rec then 8 else 0 := by
  have hlow : (rec.flags &&& (3 : UInt32)).toNat = rec.flags.toNat % 4 := by
    rw [UInt32.toNat_and]
    exact Nat.and_two_pow_sub_one_eq_mod _ 2
  have hspans : (rec.flags >>> 8 &&& (1 : UInt32)).toNat = rec.flags.toNat / 256 % 2 := by
    rw [UInt32.toNat_and, UInt32.toNat_shiftRight]
    show rec.flags.toNat >>> 8 &&& 1 = _
    rw [Nat.shiftRight_eq_div_pow, Nat.and_one_is_mod]
  have hflags : ((rec.flags &&& (3 : UInt32)) |||
      (rec.flags >>> 8 &&& (1 : UInt32)) <<< (2 : UInt32)).toNat =
      rec.flags.toNat % 4 + rec.flags.toNat / 256 % 2 * 4 := by
    rw [← hlow, ← hspans]
    refine toNat_or_shiftLeft (s := 2) (by decide) ?_ ?_
    · rw [hlow]
      exact Nat.mod_lt _ (by decide)
    · rw [hspans]
      show _ * 4 < 2 ^ 32
      omega
  rw [runFlags]
  split
  · rw [← hflags]
    refine toNat_or_shiftLeft (s := 3) (by decide) ?_ (by decide)
    rw [hflags]
    show _ < 8
    omega
  · exact hflags

theorem runFlags_lt (i : Nat) (rec : RunRec) : (runFlags i rec).toNat < 2 ^ 4 := by
  rw [runFlags_toNat]
  split <;> omega

theorem testBit_runFlags (i : Nat) (rec : RunRec) :
    (runFlags i rec).toNat.testBit 0 = rec.flags.toNat.testBit 0 ∧
      (runFlags i rec).toNat.testBit 1 = rec.flags.toNat.testBit 1 ∧
      (runFlags i rec).toNat.testBit 2 = rec.flags.toNat.testBit 8 := by
  simp only [Nat.testBit_eq_decide_div_mod_eq, decide_eq_decide, runFlags_toNat]
  split <;> omega

/-- What the loop over the runs has written: `index` is the run-extra index. -/
structure PackedRuns where
  runs : List UInt32
  index : List UInt32
  extras : List UInt32

/-- One turn of the loop over the runs. -/
def packRun (li : LineIndex) (packed : PackedRuns) (i : Nat) (rec : RunRec) : PackedRuns :=
  let offset := u32 packed.extras.length
  let extras := packed.extras ++ runExtra li i rec
  { runs := packed.runs ++ runWords i rec
    index := if offset < u32 extras.length then packed.index ++ [u32 i, offset] else packed.index
    extras := extras }

/-- The loop over the runs, from run `i` on. -/
def packRuns (li : LineIndex) : (packed : PackedRuns) → (i : Nat) → List RunRec → PackedRuns
  | packed, _, [] => packed
  | packed, i, rec :: runs => packRuns li (packRun li packed i rec) (i + 1) runs

/-! ## What the loops write -/

/-- The content records of a block. -/
def Extractor.blockRecords (ex : Extractor) (b : BlockRec) : List ContentRec :=
  (ex.content.drop b.contentOffset.toNat).take b.contentCount.toNat

/-- The words all blocks add to the extras. -/
def blockExtras (li : LineIndex) (blocks : List BlockRec) : List UInt32 :=
  blocks.flatMap fun b => (blockFields li b).extra

/-- The words the runs from index `i` on add to the extras. -/
def runExtras (li : LineIndex) : (i : Nat) → List RunRec → List UInt32
  | _, [] => []
  | i, rec :: runs => runExtra li i rec ++ runExtras li (i + 1) runs

theorem runExtras_nil (li : LineIndex) (i : Nat) : runExtras li i [] = [] := rfl

theorem runExtras_cons (li : LineIndex) (i : Nat) (rec : RunRec) (runs : List RunRec) :
    runExtras li i (rec :: runs) = runExtra li i rec ++ runExtras li (i + 1) runs := rfl

theorem length_blockWords (li : LineIndex) (firstRun : UInt32) (n k : Nat) (rec : BlockRec) :
    (blockWords li firstRun n k rec).length = 10 := rfl

theorem length_contentWords (c : ContentRec) : (contentWords c).length = 4 := rfl

theorem length_runWords (i : Nat) (rec : RunRec) : (runWords i rec).length = 4 := rfl

/-- The loop over the blocks writes every content record of theirs, all their extras, and
    their records in order, each with the offsets at which its own begin. -/
theorem packBlocks_spec {ex : Extractor} :
    ∀ {blocks : List BlockRec} {packed : Packed} {firstRuns : List UInt32},
      (∀ b ∈ blocks, b.contentOffset.toNat + b.contentCount.toNat ≤ ex.content.length) →
      blocks.length ≤ firstRuns.length →
      ∃ result, packBlocks ex packed blocks firstRuns = some result ∧
        result.content =
          packed.content ++ (blocks.flatMap ex.blockRecords).flatMap contentWords ∧
        result.extras = packed.extras ++ blockExtras ex.li blocks ∧
        ∃ records : List (List UInt32), result.blocks = packed.blocks ++ records.flatten ∧
          records.length = blocks.length ∧
          ∀ i b firstRun, blocks[i]? = some b → firstRuns[i]? = some firstRun →
            records[i]? = some (blockWords ex.li firstRun
              ((packed.content.length +
                (((blocks.take i).flatMap ex.blockRecords).length) * 4) / 4)
              (packed.extras.length + (blockExtras ex.li (blocks.take i)).length) b)
  | [], packed, _, _, _ => ⟨packed, by simp [packBlocks], by simp, by simp [blockExtras],
      [], by simp, rfl, by simp⟩
  | b :: blocks, packed, [], _, hlen => absurd hlen (by simp)
  | b :: blocks, packed, firstRun :: firstRuns, hin, hlen => by
    -- The block's records are copied, and the next one's begin behind them.
    have hslice : slice ex.content b.contentOffset.toNat b.contentCount.toNat =
        some (ex.blockRecords b) := if_pos (hin b List.mem_cons_self)
    obtain ⟨result, hresult, hcontent, hextras, records, hblocks, hcount, hrecords⟩ :=
      @packBlocks_spec ex blocks
        { blocks := packed.blocks ++ blockWords ex.li firstRun (packed.content.length / 4)
            packed.extras.length b
          content := packed.content ++ (ex.blockRecords b).flatMap contentWords
          extras := packed.extras ++ (blockFields ex.li b).extra }
        firstRuns (fun b' hb' => hin b' (List.mem_cons_of_mem _ hb'))
        (by simpa using hlen)
    refine ⟨result, ?_, ?_, ?_, blockWords ex.li firstRun (packed.content.length / 4)
      packed.extras.length b :: records, ?_, by simp [hcount], ?_⟩
    · rw [packBlocks, packBlock, hslice]
      exact hresult
    · rw [hcontent, List.flatMap_cons, List.flatMap_append, List.append_assoc]
    · rw [hextras, blockExtras, blockExtras, List.flatMap_cons, List.append_assoc]
    · rw [hblocks, List.flatten_cons, List.append_assoc]
    · intro i b' firstRun' hb' hfirst
      cases i with
      | zero =>
        obtain rfl := Option.some.inj hb'
        obtain rfl := Option.some.inj hfirst
        simp [blockExtras]
      | succ i =>
        rw [List.getElem?_cons_succ] at hb' hfirst ⊢
        rw [hrecords i b' firstRun' hb' hfirst, List.take_succ_cons, List.flatMap_cons,
          List.length_append, List.length_append, List.length_append,
          length_flatMap_width fun c _ => length_contentWords c, blockExtras, blockExtras,
          List.flatMap_cons, List.length_append]
        congr 2 <;> omega

/-- The entries of the run-extra index for the runs from index `i` on, whose extras begin
    at `offset`: a run that adds extras, and where they begin. -/
def runIndex (li : LineIndex) : (offset i : Nat) → List RunRec → List (Nat × Nat)
  | _, _, [] => []
  | offset, i, rec :: runs =>
    let rest := runIndex li (offset + (runExtra li i rec).length) (i + 1) runs
    if (runExtra li i rec).isEmpty then rest else (i, offset) :: rest

theorem runIndex_cons (li : LineIndex) (offset i : Nat) (rec : RunRec) (runs : List RunRec) :
    runIndex li offset i (rec :: runs) =
      if (runExtra li i rec).isEmpty then
        runIndex li (offset + (runExtra li i rec).length) (i + 1) runs
      else (i, offset) :: runIndex li (offset + (runExtra li i rec).length) (i + 1) runs := rfl

/-- The words of an index entry. -/
def indexWords (entry : Nat × Nat) : List UInt32 := [u32 entry.1, u32 entry.2]

theorem length_indexWords (entry : Nat × Nat) : (indexWords entry).length = 2 := rfl

/-- The records of the runs from index `i` on. -/
def runRecords : (i : Nat) → List RunRec → List (List UInt32)
  | _, [] => []
  | i, rec :: runs => runWords i rec :: runRecords (i + 1) runs

/-- The loop over the runs writes their records, extras and index in order, if the extras
    fit a word. -/
theorem packRuns_spec {li : LineIndex} :
    ∀ {runs : List RunRec} {packed : PackedRuns} {i : Nat},
      packed.extras.length + (runExtras li i runs).length < 2 ^ 32 →
      packRuns li packed i runs =
        { runs := packed.runs ++ (runRecords i runs).flatten
          index := packed.index ++ (runIndex li packed.extras.length i runs).flatMap indexWords
          extras := packed.extras ++ runExtras li i runs }
  | [], packed, i, _ => by simp [packRuns, runExtras, runRecords, runIndex]
  | rec :: runs, packed, i, hlen => by
    rw [runExtras_cons, List.length_append] at hlen
    have hoffset : u32 packed.extras.length <
        u32 (packed.extras.length + (runExtra li i rec).length) ↔ runExtra li i rec ≠ [] := by
      rw [UInt32.lt_iff_toNat_lt, UInt32.toNat_ofNat', UInt32.toNat_ofNat',
        Nat.mod_eq_of_lt (by omega), Nat.mod_eq_of_lt (by omega), ← List.length_pos_iff]
      omega
    rw [packRuns, packRuns_spec (by
      rw [packRun, List.length_append]
      omega)]
    simp only [packRun, runExtras, runRecords, runIndex, List.flatten_cons, List.append_assoc,
      List.length_append, hoffset, List.isEmpty_iff]
    split
    · simp [indexWords]
    · next heq => simp [not_not.1 heq]

theorem getElem?_runRecords {runs : List RunRec} {i j : Nat} {rec : RunRec}
    (h : runs[j]? = some rec) : (runRecords i runs)[j]? = some (runWords (i + j) rec) := by
  induction runs generalizing i j with
  | nil => simp at h
  | cons r runs ih =>
    cases j with
    | zero =>
      obtain rfl := Option.some.inj h
      rfl
    | succ j =>
      rw [List.getElem?_cons_succ] at h
      rw [runRecords, List.getElem?_cons_succ, ih h, Nat.add_right_comm, Nat.add_assoc]

theorem length_runRecords (i : Nat) (runs : List RunRec) :
    (runRecords i runs).length = runs.length := by
  induction runs generalizing i with
  | nil => rfl
  | cons r runs ih => rw [runRecords, List.length_cons, ih, List.length_cons]

/-- The extras of a run begin where those of the runs before it end. -/
theorem getElem?_runExtras (li : LineIndex) {runs : List RunRec} {i j k : Nat} {rec : RunRec}
    (h : runs[j]? = some rec) (hk : k < (runExtra li (i + j) rec).length) :
    (runExtras li i runs)[(runExtras li i (runs.take j)).length + k]? =
      (runExtra li (i + j) rec)[k]? := by
  induction runs generalizing i j with
  | nil => simp at h
  | cons r runs ih =>
    cases j with
    | zero =>
      obtain rfl := Option.some.inj h
      rw [Nat.add_zero] at hk ⊢
      rw [List.take_zero, runExtras_nil, runExtras_cons, List.length_nil, Nat.zero_add,
        List.getElem?_append_left hk]
    | succ j =>
      rw [List.getElem?_cons_succ] at h
      rw [List.take_succ_cons, runExtras_cons, runExtras_cons, List.length_append, Nat.add_assoc,
        List.getElem?_append_right (Nat.le_add_right _ _), Nat.add_sub_cancel_left,
        ih h (by rwa [Nat.add_right_comm]), Nat.add_right_comm, Nat.add_assoc]

theorem length_runExtras_take_le (li : LineIndex) (runs : List RunRec) (i n : Nat) :
    (runExtras li n (runs.take i)).length ≤ (runExtras li n runs).length := by
  induction runs generalizing i n with
  | nil => simp
  | cons r runs ih =>
    cases i with
    | zero => simp [runExtras]
    | succ i =>
      rw [List.take_succ_cons, runExtras_cons, runExtras_cons, List.length_append, List.length_append]
      exact Nat.add_le_add_left (ih _ _) _

/-- The index has the runs that add extras, each with where its extras begin. -/
theorem mem_runIndex {li : LineIndex} {runs : List RunRec} {offset i : Nat} {e : Nat × Nat} :
    e ∈ runIndex li offset i runs ↔ ∃ j rec, runs[j]? = some rec ∧ e.1 = i + j ∧
      runExtra li (i + j) rec ≠ [] ∧
      e.2 = offset + (runExtras li i (runs.take j)).length := by
  induction runs generalizing offset i with
  | nil => simp [runIndex]
  | cons r runs ih =>
    have hrest : e ∈ runIndex li (offset + (runExtra li i r).length) (i + 1) runs ↔
        ∃ j rec, (r :: runs)[j + 1]? = some rec ∧ e.1 = i + (j + 1) ∧
          runExtra li (i + (j + 1)) rec ≠ [] ∧
          e.2 = offset + (runExtras li i ((r :: runs).take (j + 1))).length := by
      rw [ih]
      refine exists₂_congr fun j rec => ?_
      rw [List.getElem?_cons_succ, List.take_succ_cons, runExtras_cons, List.length_append,
        Nat.add_right_comm, Nat.add_assoc i, Nat.add_assoc offset]
    have hsplit : e ∈ runIndex li offset i (r :: runs) ↔
        (runExtra li i r ≠ [] ∧ e = (i, offset)) ∨
          e ∈ runIndex li (offset + (runExtra li i r).length) (i + 1) runs := by
      rw [runIndex_cons]
      split
      · next h => simp [List.isEmpty_iff.1 h]
      · next h =>
        rw [List.isEmpty_iff] at h
        simp [h]
    rw [hsplit, hrest]
    constructor
    · rintro (⟨hne, rfl⟩ | ⟨j, rec, hrec, h⟩)
      · exact ⟨0, r, rfl, rfl, hne, by simp [runExtras]⟩
      · exact ⟨j + 1, rec, hrec, h⟩
    · rintro ⟨j, rec, hrec, h₁, hne, h₂⟩
      cases j with
      | zero =>
        obtain rfl := Option.some.inj hrec
        exact Or.inl ⟨hne, Prod.ext h₁ (by simpa [runExtras] using h₂)⟩
      | succ j => exact Or.inr ⟨j, rec, hrec, h₁, hne, h₂⟩

theorem length_runIndex_le (li : LineIndex) (offset i : Nat) (runs : List RunRec) :
    (runIndex li offset i runs).length ≤ runs.length := by
  induction runs generalizing offset i with
  | nil => exact Nat.le_refl 0
  | cons r runs ih =>
    rw [runIndex_cons]
    split
    · exact (ih _ _).trans (Nat.le_succ _)
    · exact Nat.succ_le_succ (ih _ _)

/-- The index is in the order of the runs. -/
theorem pairwise_runIndex (li : LineIndex) (offset i : Nat) (runs : List RunRec) :
    (runIndex li offset i runs).Pairwise fun e e' => e.1 < e'.1 := by
  induction runs generalizing offset i with
  | nil => exact List.Pairwise.nil
  | cons r runs ih =>
    rw [runIndex_cons]
    split
    · exact ih _ _
    · refine List.pairwise_cons.2 ⟨fun e he => ?_, ih _ _⟩
      obtain ⟨j, _, _, hj, -⟩ := mem_runIndex.1 he
      show i < e.1
      omega

theorem skipRuns_eq (b : Nat) (runs : List RunRec) (r : Nat) :
    skipRuns b runs r = (runs.dropWhile fun rec => rec.block.toNat < b,
      r + (runs.takeWhile fun rec => rec.block.toNat < b).length) := by
  induction runs generalizing r with
  | nil => rfl
  | cons rec runs ih =>
    rw [skipRuns]
    split
    · next h =>
      rw [ih, List.dropWhile_cons_of_pos (by simpa using h),
        List.takeWhile_cons_of_pos (by simpa using h), List.length_cons, Nat.add_assoc,
        Nat.add_comm 1]
    · next h =>
      rw [List.dropWhile_cons_of_neg (by simpa using h),
        List.takeWhile_cons_of_neg (by simpa using h), List.length_nil, Nat.add_zero]

/-- Skipping on from where an earlier block's skipping stopped. -/
theorem skipRuns_dropWhile {b b' : Nat} (hb : b ≤ b') (runs : List RunRec) :
    skipRuns b' (runs.dropWhile fun rec => rec.block.toNat < b)
        (runs.takeWhile fun rec => rec.block.toNat < b).length =
      (runs.dropWhile fun rec => rec.block.toNat < b',
        (runs.takeWhile fun rec => rec.block.toNat < b').length) := by
  induction runs with
  | nil => rfl
  | cons rec runs ih =>
    by_cases h : rec.block.toNat < b
    · have h' : rec.block.toNat < b' := by omega
      rw [skipRuns_eq, Prod.mk.injEq] at ih
      rw [List.dropWhile_cons_of_pos (by simpa using h), skipRuns_eq,
        List.takeWhile_cons_of_pos (by simpa using h),
        List.dropWhile_cons_of_pos (by simpa using h'),
        List.takeWhile_cons_of_pos (by simpa using h'), ih.1, List.length_cons, List.length_cons,
        ← ih.2, Nat.add_right_comm]
    · rw [List.dropWhile_cons_of_neg (by simpa using h),
        List.takeWhile_cons_of_neg (by simpa using h), skipRuns_eq, List.length_nil, Nat.zero_add]

theorem getElem?_firstRunsFrom (runs : List RunRec) :
    ∀ {n start b k : Nat}, b ≤ start → k < n →
      (firstRunsFrom (List.range' start n) (runs.dropWhile fun rec => rec.block.toNat < b)
          (runs.takeWhile fun rec => rec.block.toNat < b).length)[k]? =
        some (u32 (runs.takeWhile fun rec => rec.block.toNat < start + k).length)
  | 0, _, _, _, _, hk => absurd hk (Nat.not_lt_zero _)
  | n + 1, start, b, k, hb, hk => by
    rw [List.range'_succ, firstRunsFrom, skipRuns_dropWhile hb]
    cases k with
    | zero => rfl
    | succ k =>
      rw [List.getElem?_cons_succ, getElem?_firstRunsFrom runs (Nat.le_succ start) (by omega),
        Nat.succ_add, Nat.add_succ]

/-- The slot of a block is the number of runs before the first of no earlier block. -/
theorem getElem?_firstRuns {runs : List RunRec} {nb b : Nat} (hb : b ≤ nb) :
    (firstRuns runs nb)[b]? =
      some (u32 (runs.takeWhile fun rec => rec.block.toNat < b).length) := by
  have hnone : ∀ l : List RunRec, (l.dropWhile fun rec => rec.block.toNat < 0) = l ∧
      (l.takeWhile fun rec => rec.block.toNat < 0) = [] := by
    intro l
    cases l <;> simp
  have h := getElem?_firstRunsFrom runs (n := nb + 1) (k := b) (Nat.zero_le 0) (by omega)
  rwa [(hnone runs).1, (hnone runs).2, Nat.zero_add, ← List.range_eq_range'] at h

/-- Of runs in block order, those before a block's slot are the runs of earlier blocks. -/
theorem lt_length_takeWhile_iff {runs : List RunRec} {b i : Nat} {rec : RunRec}
    (hsorted : runs.Pairwise fun r r' => r.block ≤ r'.block) (hrec : runs[i]? = some rec) :
    i < (runs.takeWhile fun rec => rec.block.toNat < b).length ↔ rec.block.toNat < b := by
  induction runs generalizing i with
  | nil => simp at hrec
  | cons r runs ih =>
    obtain ⟨hr, hsorted⟩ := List.pairwise_cons.1 hsorted
    by_cases h : r.block.toNat < b
    · rw [List.takeWhile_cons_of_pos (by simpa using h), List.length_cons]
      cases i with
      | zero =>
        obtain rfl := Option.some.inj hrec
        simpa using h
      | succ i =>
        rw [Nat.succ_lt_succ_iff]
        exact ih hsorted hrec
    · rw [List.takeWhile_cons_of_neg (by simpa using h)]
      refine iff_of_false (Nat.not_lt_zero i) fun hlt => h ?_
      cases i with
      | zero =>
        obtain rfl := Option.some.inj hrec
        exact hlt
      | succ i =>
        exact (UInt32.le_iff_toNat_le.1 (hr rec (List.mem_of_getElem? hrec))).trans_lt hlt

/-! ## The document -/

/-- The words of a definition. -/
def definitionWords (li : LineIndex) (d : Definition) : List UInt32 :=
  [li.u16 d.start, li.u16 d.stop, li.u16 d.label.1, li.u16 d.label.2, li.u16 d.dest.1,
    li.u16 d.dest.2]

/-- The string table: the bytes by fours, the last ones padded with zeros. -/
def stringWords : List UInt8 → List UInt32
  | [] => []
  | [b₀] => [ofLeBytes b₀ 0 0 0]
  | [b₀, b₁] => [ofLeBytes b₀ b₁ 0 0]
  | [b₀, b₁, b₂] => [ofLeBytes b₀ b₁ b₂ 0]
  | b₀ :: b₁ :: b₂ :: b₃ :: bytes => ofLeBytes b₀ b₁ b₂ b₃ :: stringWords bytes

/-- The words of the string table hold its bytes, and padding. -/
theorem leBytes_stringWords (bytes : List UInt8) :
    ∃ padding, leBytes (stringWords bytes) = bytes ++ padding := by
  fun_induction stringWords bytes with
  | case1 => exact ⟨[], rfl⟩
  | case2 b₀ => exact ⟨[0, 0, 0], toLeBytes_ofLeBytes b₀ 0 0 0⟩
  | case3 b₀ b₁ => exact ⟨[0, 0], toLeBytes_ofLeBytes b₀ b₁ 0 0⟩
  | case4 b₀ b₁ b₂ => exact ⟨[0], toLeBytes_ofLeBytes b₀ b₁ b₂ 0⟩
  | case5 b₀ b₁ b₂ b₃ bytes ih =>
    obtain ⟨padding, h⟩ := ih
    refine ⟨padding, ?_⟩
    rw [leBytes, List.flatMap_cons, toLeBytes_ofLeBytes, ← leBytes, h]
    rfl

/-- The sections of the published model. -/
structure Sections where
  blocks : List UInt32
  content : List UInt32
  runs : List UInt32
  index : List UInt32
  extras : List UInt32

/-- The header. -/
def headerWords (ex : Extractor) (sections : Sections) : List UInt32 :=
  [u32 RenderModelSchema.magic, u32 RenderModelSchema.version, u32 ex.src.length,
    ex.li.u16 ex.src.length, u32 ex.li.lineCount, u32 ex.blocks.length,
    u32 (sections.content.length / RenderModelSchema.contentWords), u32 ex.runs.length,
    u32 ex.definitions.length, u32 (sections.index.length / RenderModelSchema.runExtraWords),
    u32 sections.extras.length, u32 ex.strings.length]

/-- The words of the published model, section by section. -/
def outWords (ex : Extractor) (sections : Sections) : List UInt32 :=
  headerWords ex sections ++
    (List.range ex.li.lineCount).map (fun l => ex.li.u16 (ex.li.lineStart l)) ++
    sections.blocks ++ sections.content ++ sections.runs ++
    ex.definitions.flatMap (definitionWords ex.li) ++ sections.index ++ sections.extras ++
    stringWords ex.strings

/-- The two loops of `encode`. -/
def Extractor.packSections (ex : Extractor) : Option Sections := do
  let packed ← packBlocks ex ⟨[], [], []⟩ ex.blocks (firstRuns ex.runs ex.blocks.length)
  let runs := packRuns ex.li ⟨[], [], packed.extras⟩ 0 ex.runs
  return ⟨packed.blocks, packed.content, runs.runs, runs.index, runs.extras⟩

/-- The content records that `encode` visits, block by block. -/
def Extractor.ownedContent (ex : Extractor) : List ContentRec := ex.blocks.flatMap ex.blockRecords

/-- The deviations that `encode` notes: a content record that does not fit its word, and
    content records that belong to no block or to several. -/
def Extractor.notePacking (ex : Extractor) (sections : Sections) : Extractor :=
  let ex := match packingOverflow ex.ownedContent with
    | some detail => ex.dev "content-packing" detail
    | none => ex
  let kept := sections.content.length / RenderModelSchema.contentWords
  let all := ex.content.length
  if kept ≠ all then
    ex.dev "content-owner" s!"{kept} of {all} content records belong to a block"
  else ex

/-- `Extractor::encode`. -/
def Extractor.encode (ex : Extractor) : Option (Extractor × List UInt32) := do
  let sections ← ex.packSections
  return (ex.notePacking sections, outWords ex sections)

/-- `to_bytes`: the model as the byte stream a host receives. -/
def toBytes (words : List UInt32) : List UInt8 := leBytes words

end Flark.Native
