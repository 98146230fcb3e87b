import Flark.Text

/-!
# Admission

What a source must be before anything parses it: the contract of the source (no bare CR,
well-formed UTF-16) and its size. `validateFlarkSource` checks the contract alone,
`_SourceStats` gathers it with the counts in one pass.

* `SourceStats.valid_of`: the two agree on the contract;
* `flarkSourceRefusal`: why an editor refuses a source, if it does;
* `flarkSourceRefusal_cut`: it does not refuse one that it admits for want of a piece.
-/

namespace Flark

/-- `FlarkRejection`. -/
inductive FlarkRejection
  | staleRevision
  | unsupportedEdit
  | invalidSource
  | extractionDeviation
  | sourceLimit
  deriving DecidableEq, Repr

def isHighSurrogate (u : UInt16) : Bool := decide (0xD800 ≤ u) && decide (u ≤ 0xDBFF)

def isLowSurrogate (u : UInt16) : Bool := decide (0xDC00 ≤ u) && decide (u ≤ 0xDFFF)

/-- `validateFlarkSource`: whether it throws. -/
def validateFlarkSource : Text → Bool
  | [] => true
  | u :: rest =>
    if u = 0x0D ∧ rest.head? ≠ some 0x0A then false
    else if isHighSurrogate u then
      match rest with
      | [] => false
      | low :: rest => if isLowSurrogate low then validateFlarkSource rest else false
    else if isLowSurrogate u then false
    else validateFlarkSource rest

theorem validate_cons (u : UInt16) (rest : Text) : validateFlarkSource (u :: rest) =
    if u = 0x0D ∧ rest.head? ≠ some 0x0A then false
    else if isHighSurrogate u then
      match rest with
      | [] => false
      | low :: rest => if isLowSurrogate low then validateFlarkSource rest else false
    else if isLowSurrogate u then false
    else validateFlarkSource rest := by
  cases rest <;> rfl

/-- `_SourceStats`. -/
structure SourceStats where
  valid : Bool
  utf8Bytes : Nat
  lines : Nat
  widestLine : Nat
  deriving DecidableEq, Repr

namespace SourceStats

def invalid : SourceStats := ⟨false, 0, 0, 0⟩

/-- The loop of `_SourceStats.of`. -/
def count : (source : Text) → (bytes lines width widest : Nat) → SourceStats
  | [], bytes, lines, width, widest => ⟨true, bytes, lines, if width > widest then width else widest⟩
  | u :: rest, bytes, lines, width, widest =>
    if u = 0x0A then count rest (bytes + 1) (lines + 1) 0 (if width > widest then width else widest)
    else if u ≤ 0x7F then
      if u = 0x0D ∧ rest.head? ≠ some 0x0A then invalid
      else count rest (bytes + 1) lines (width + 1) widest
    else if u ≤ 0x7FF then count rest (bytes + 2) lines (width + 1) widest
    else if isHighSurrogate u then
      match rest with
      | [] => invalid
      | low :: rest =>
        if isLowSurrogate low then count rest (bytes + 4) lines (width + 2) widest else invalid
    else if isLowSurrogate u then invalid
    else count rest (bytes + 3) lines (width + 1) widest

def of (source : Text) : SourceStats := count source 0 1 0 0

theorem count_cons (u : UInt16) (rest : Text) (bytes lines width widest : Nat) :
    count (u :: rest) bytes lines width widest =
      if u = 0x0A then
        count rest (bytes + 1) (lines + 1) 0 (if width > widest then width else widest)
      else if u ≤ 0x7F then
        if u = 0x0D ∧ rest.head? ≠ some 0x0A then invalid
        else count rest (bytes + 1) lines (width + 1) widest
      else if u ≤ 0x7FF then count rest (bytes + 2) lines (width + 1) widest
      else if isHighSurrogate u then
        match rest with
        | [] => invalid
        | low :: rest =>
          if isLowSurrogate low then count rest (bytes + 4) lines (width + 2) widest else invalid
      else if isLowSurrogate u then invalid
      else count rest (bytes + 3) lines (width + 1) widest := by
  cases rest <;> rfl

/-- A surrogate is above all units that the loop looks at before it. -/
theorem lt_of_isSurrogate {u : UInt16} (h : isHighSurrogate u = true ∨ isLowSurrogate u = true) :
    u ≠ 0x0A ∧ ¬u ≤ 0x7F ∧ ¬u ≤ 0x7FF := by
  have hle : (0xD800 : UInt16) ≤ u := by
    rcases h with h | h <;>
      simp only [isHighSurrogate, isLowSurrogate, Bool.and_eq_true, decide_eq_true_eq] at h
    · exact h.1
    · exact UInt16.le_trans (by decide) h.1
  have hbig : 0xD800 ≤ u.toNat := UInt16.le_iff_toNat_le.1 hle
  refine ⟨fun heq => ?_, fun hsmall => ?_, fun hsmall => ?_⟩
  · subst heq
    exact absurd hbig (by decide)
  · have : u.toNat ≤ 0x7F := UInt16.le_iff_toNat_le.1 hsmall
    omega
  · have : u.toNat ≤ 0x7FF := UInt16.le_iff_toNat_le.1 hsmall
    omega

/-- The loop at a surrogate. -/
theorem count_surrogate {u : UInt16} (h : isHighSurrogate u = true ∨ isLowSurrogate u = true)
    (rest : Text) (bytes lines width widest : Nat) :
    count (u :: rest) bytes lines width widest = if isHighSurrogate u then
      match rest with
      | [] => invalid
      | low :: rest =>
        if isLowSurrogate low then count rest (bytes + 4) lines (width + 2) widest else invalid
    else if isLowSurrogate u then invalid
    else count rest (bytes + 3) lines (width + 1) widest := by
  obtain ⟨hfeed, hsmall, hbig⟩ := lt_of_isSurrogate h
  rw [count_cons]
  simp only [if_neg hfeed, if_neg hsmall, if_neg hbig]

theorem valid_count (source : Text) (bytes lines width widest : Nat) :
    (count source bytes lines width widest).valid = validateFlarkSource source := by
  induction source using validateFlarkSource.induct generalizing bytes lines width widest with
  | case1 => rfl
  | case2 u rest hcr =>
    obtain rfl := hcr.1
    rw [validate_cons, count_cons, if_neg (by decide), if_pos (by decide), if_pos hcr, if_pos hcr]
    rfl
  | case3 u hhigh hcr =>
    rw [count_surrogate (Or.inl hhigh), validate_cons]
    simp only [if_neg hcr, if_pos hhigh]
    rfl
  | case4 u hhigh low rest hlow hcr ih =>
    rw [count_surrogate (Or.inl hhigh), validate_cons]
    simp only [if_neg hcr, if_pos hhigh, if_pos hlow]
    exact ih _ _ _ _
  | case5 u hhigh low rest hlow hcr =>
    rw [count_surrogate (Or.inl hhigh), validate_cons]
    simp only [if_neg hcr, if_pos hhigh, if_neg hlow]
    rfl
  | case6 u rest hcr hhigh hlow =>
    rw [count_surrogate (Or.inr hlow), validate_cons]
    simp only [if_neg hcr, if_neg hhigh, if_pos hlow]
    rfl
  | case7 u rest hcr hhigh hlow ih =>
    rw [count_cons, validate_cons]
    simp only [if_neg hcr, if_neg hhigh, if_neg hlow]
    split_ifs <;> exact ih _ _ _ _

/-- One pass decides the contract as the check of its own does. -/
theorem valid_of (source : Text) : (of source).valid = validateFlarkSource source :=
  valid_count source 0 1 0 0

end SourceStats

/-! ## Pieces of a source -/

theorem validate_high {u : UInt16} (h : isHighSurrogate u = true) (rest : Text) :
    validateFlarkSource (u :: rest) =
      (rest.head?.any isLowSurrogate && validateFlarkSource rest.tail) := by
  have hcr : u ≠ 0x0D := fun heq => (SourceStats.lt_of_isSurrogate (Or.inl h)).2.1 (heq ▸ by decide)
  rw [validate_cons]
  simp only [hcr, false_and, if_false, if_pos h]
  cases rest with
  | nil => rfl
  | cons v rest =>
    simp only [List.head?_cons, List.tail_cons, Option.any_some]
    cases isLowSurrogate v <;> rfl

theorem validate_unit {u : UInt16} (h : ¬isHighSurrogate u = true) (rest : Text) :
    validateFlarkSource (u :: rest) = true ↔ (u = 0x0D → rest.head? = some 0x0A) ∧
      ¬isLowSurrogate u = true ∧ validateFlarkSource rest = true := by
  rw [validate_cons]
  simp only [if_neg h]
  split_ifs with hcr hlow
  · exact ⟨(fun h => by cases h), fun h => absurd (h.1 hcr.1) hcr.2⟩
  · exact ⟨(fun h => by cases h), fun h => absurd hlow h.2.1⟩
  · rw [not_and, not_not] at hcr
    exact ⟨fun h => ⟨hcr, hlow, h⟩, fun h => h.2.2⟩

/-- A valid source is made from its end, of pairs of surrogates and of units that are none. -/
@[elab_as_elim]
theorem validate_induction {motive : Text → Prop} (nil : motive [])
    (pair : ∀ u v rest, isHighSurrogate u = true → isLowSurrogate v = true →
      motive rest → motive (u :: v :: rest))
    (unit : ∀ u rest, ¬isHighSurrogate u = true → ¬isLowSurrogate u = true →
      (u = 0x0D → rest.head? = some 0x0A) → motive rest → motive (u :: rest))
    {source : Text} (h : validateFlarkSource source = true) : motive source := by
  induction hn : source.length using Nat.strongRecOn generalizing source with
  | _ n ih =>
    subst hn
    cases source with
    | nil => exact nil
    | cons u rest =>
      by_cases hhigh : isHighSurrogate u = true
      · rw [validate_high hhigh, Bool.and_eq_true, Option.any_eq_true] at h
        obtain ⟨⟨v, hv, hlow⟩, hrest⟩ := h
        obtain ⟨rest, rfl⟩ := List.head?_eq_some_iff.1 hv
        have hlt : rest.length < (u :: v :: rest).length := by
          simp only [List.length_cons]
          omega
        exact pair u v rest hhigh hlow (ih _ hlt hrest rfl)
      · obtain ⟨hcr, hlow, hrest⟩ := (validate_unit hhigh _).1 h
        exact unit u rest hhigh hlow hcr (ih _ (Nat.lt_succ_self _) hrest rfl)

/-- Two units that stand together only: those of a line break, and those of one code point. -/
def IsPair (u v : UInt16) : Prop :=
  u = 0x0D ∧ v = 0x0A ∨ isHighSurrogate u = true ∧ isLowSurrogate v = true

/-- The pieces of a valid source are valid, where no pair lies across them. -/
theorem validate_of_append {x y : Text} (h : validateFlarkSource (x ++ y) = true)
    (hapart : ∀ u v, x.getLast? = some u → y.head? = some v → ¬IsPair u v) :
    validateFlarkSource x = true ∧ validateFlarkSource y = true := by
  induction hn : x.length using Nat.strongRecOn generalizing x with
  | _ n ih =>
    subst hn
    cases x with
    | nil => exact ⟨rfl, h⟩
    | cons u rest =>
      rw [List.cons_append] at h
      by_cases hhigh : isHighSurrogate u = true
      · rw [validate_high hhigh, Bool.and_eq_true, Option.any_eq_true] at h
        obtain ⟨⟨v, hv, hlow⟩, h⟩ := h
        cases rest with
        | nil => exact absurd (Or.inr ⟨hhigh, hlow⟩) (hapart u v rfl hv)
        | cons v' rest =>
          obtain rfl := Option.some_inj.1 hv
          have hapart' : ∀ a b, rest.getLast? = some a → y.head? = some b → ¬IsPair a b :=
            fun a b ha => hapart a b (by
              rw [List.getLast?_cons_cons, List.getLast?_cons, ha, Option.getD_some])
          have hlt : rest.length < (u :: v' :: rest).length := by
            simp only [List.length_cons]
            omega
          obtain ⟨hrest, hy⟩ := ih rest.length hlt h hapart' rfl
          rw [validate_high hhigh]
          simp [hlow, hrest, hy]
      · obtain ⟨hcr, hlow, h⟩ := (validate_unit hhigh _).1 h
        obtain ⟨hrest, hy⟩ := ih rest.length (Nat.lt_succ_self _) h (fun a b ha => hapart a b (by
            rw [List.getLast?_cons, ha, Option.getD_some])) rfl
        refine ⟨(validate_unit hhigh _).2 ⟨fun heq => ?_, hlow, hrest⟩, hy⟩
        -- A line feed in the other piece would lie across.
        cases rest with
        | nil => exact absurd (Or.inl ⟨heq, rfl⟩) (hapart u 0x0A rfl (hcr heq))
        | cons v rest => exact hcr heq

namespace SourceStats

/-- A piece adds a number of bytes to the count, whatever is behind it. -/
def Adds (x : Text) (k : Nat) : Prop :=
  ∀ y bytes lines width widest, ∃ lines' width' widest',
    count (x ++ y) bytes lines width widest = count y (bytes + k) lines' width' widest'

theorem Adds.append {x y : Text} {k k' : Nat} (hx : Adds x k) (hy : Adds y k') :
    Adds (x ++ y) (k + k') := by
  intro z bytes lines width widest
  obtain ⟨lines', width', widest', h⟩ := hx (y ++ z) bytes lines width widest
  rw [List.append_assoc, h, ← Nat.add_assoc]
  exact hy z _ _ _ _

theorem Adds.utf8Bytes_of {x : Text} {k : Nat} (hx : Adds x k) : (of x).utf8Bytes = k := by
  obtain ⟨lines, width, widest, h⟩ := hx [] 0 1 0 0
  rw [List.append_nil, Nat.zero_add] at h
  rw [of, h, count]

theorem exists_adds {x : Text} (hx : validateFlarkSource x = true) : ∃ k, Adds x k := by
  refine validate_induction ⟨0, fun y bytes lines width widest => ⟨lines, width, widest, rfl⟩⟩
    (fun u v rest hhigh hlow ⟨k, hk⟩ => ?_) (fun u rest hhigh hlow hcr ⟨k, hk⟩ => ?_) hx
  · refine ⟨4 + k, fun y bytes lines width widest => ?_⟩
    rw [List.cons_append, List.cons_append, count_surrogate (Or.inl hhigh), ← Nat.add_assoc]
    simp only [if_pos hhigh, if_pos hlow]
    exact hk y _ _ _ _
  · have hstep : ∃ n, ∀ y bytes lines width widest, ∃ lines' width' widest',
        count (u :: (rest ++ y)) bytes lines width widest =
          count (rest ++ y) (bytes + n) lines' width' widest' := by
      have hbreak (y : Text) : ¬(u = 0x0D ∧ (rest ++ y).head? ≠ some 0x0A) := by
        rintro ⟨heq, hne⟩
        obtain ⟨behind, hbehind⟩ := List.head?_eq_some_iff.1 (hcr heq)
        exact hne (by rw [hbehind, List.cons_append, List.head?_cons])
      refine ⟨if u = 0x0A then 1 else if u ≤ 0x7F then 1 else if u ≤ 0x7FF then 2 else 3,
        fun y bytes lines width widest => ?_⟩
      rw [count_cons]
      simp only [if_neg hhigh, if_neg hlow, if_neg (hbreak y)]
      split_ifs <;> exact ⟨_, _, _, rfl⟩
    obtain ⟨n, hstep⟩ := hstep
    refine ⟨n + k, fun y bytes lines width widest => ?_⟩
    obtain ⟨lines', width', widest', h⟩ := hstep y bytes lines width widest
    rw [List.cons_append, h, ← Nat.add_assoc]
    exact hk y _ _ _ _

end SourceStats

theorem validate_append {x : Text} (hx : validateFlarkSource x = true) (y : Text) :
    validateFlarkSource (x ++ y) = validateFlarkSource y := by
  obtain ⟨k, hk⟩ := SourceStats.exists_adds hx
  obtain ⟨lines, width, widest, h⟩ := hk y 0 1 0 0
  rw [← SourceStats.valid_of, SourceStats.of, h, SourceStats.valid_count]

/-- `FlarkEditor.defaultSourceLimit`: 1 MiB of UTF-8. -/
def defaultSourceLimit : Nat := 1024 * 1024

/-- `flarkSourceRefusal`: why the constructor of an editor refuses a source. -/
def flarkSourceRefusal (text : Text) (sourceLimit : Nat) : Option FlarkRejection :=
  if !validateFlarkSource text then some .invalidSource
  else if (SourceStats.of text).utf8Bytes ≤ sourceLimit then none
  else some .sourceLimit

theorem flarkSourceRefusal_eq_none {text : Text} {sourceLimit : Nat} :
    flarkSourceRefusal text sourceLimit = none ↔
      validateFlarkSource text = true ∧ (SourceStats.of text).utf8Bytes ≤ sourceLimit := by
  rw [flarkSourceRefusal]
  cases validateFlarkSource text with
  | false => exact ⟨(fun h => by cases h), (fun h => by cases h.1)⟩
  | true => simp

/-- A source that is admitted still is without a piece of it that cuts no pair. -/
theorem flarkSourceRefusal_cut {x piece y : Text} {sourceLimit : Nat}
    (h : flarkSourceRefusal (x ++ (piece ++ y)) sourceLimit = none)
    (hstart : ∀ u v, x.getLast? = some u → (piece ++ y).head? = some v → ¬IsPair u v)
    (hstop : ∀ u v, piece.getLast? = some u → y.head? = some v → ¬IsPair u v) :
    flarkSourceRefusal (x ++ y) sourceLimit = none := by
  rw [flarkSourceRefusal_eq_none] at h ⊢
  obtain ⟨hvalid, hbytes⟩ := h
  obtain ⟨hx, hrest⟩ := validate_of_append hvalid hstart
  obtain ⟨hpiece, hy⟩ := validate_of_append hrest hstop
  refine ⟨(validate_append hx y).trans hy, ?_⟩
  obtain ⟨kx, hkx⟩ := SourceStats.exists_adds hx
  obtain ⟨kp, hkp⟩ := SourceStats.exists_adds hpiece
  obtain ⟨ky, hky⟩ := SourceStats.exists_adds hy
  rw [(hkx.append (hkp.append hky)).utf8Bytes_of] at hbytes
  rw [(hkx.append hky).utf8Bytes_of]
  omega

end Flark
