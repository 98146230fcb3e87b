import Mathlib.Data.List.Sort
import Mathlib.Tactic.Linarith

/-!
# Brackets moved inward

Brackets that are nested around a stretch of a list, each moved inward past the space at the edges
of its content, from the innermost outward: the space that an inner bracket has moved past is at
the edge of the outer content then. At the front a walk passes the space; behind a feed it can
resume further on, past units that are no space.

* `skip`, `trim`: the walks from the edges of a content;
* `push`, `pushAll`: a bracket moved inward, and all of them;
* `pairwise_pushAll`: what stands before what, once all are moved: an opening bracket has gone right
  past what the innermost walk passed and past inner brackets, a closing one left past space, and
  nothing else has moved.
-/

namespace Flark

namespace Inward

/-! ## The walks -/

section

variable (space feed : Nat → Bool) (resume : Nat → Int)

/-- The first place that is no space, up to `last`, in a number of turns at most. Behind a feed the
    walk goes on where it resumes. -/
def skip (last : Nat) : (fuel : Nat) → (first : Nat) → Nat
  | 0, first => first
  | fuel + 1, first =>
    if first < last ∧ space first then
      if feed first ∧ ((first + 1 : Nat) : Int) < resume (first + 1) ∧ resume (first + 1) ≤ last then
        skip last fuel (resume (first + 1)).toNat
      else skip last fuel (first + 1)
    else first

/-- The place behind the last one that is no space, from `first` on. -/
def trim (first : Nat) : (last : Nat) → Nat
  | 0 => 0
  | last + 1 => if first < last + 1 ∧ space last then trim first last else last + 1

end

section

variable {space feed : Nat → Bool} {resume : Nat → Int} {last fuel first : Nat}

/-- A turn of the skip goes on by one unit, or to where the next line resumes. -/
theorem skip_succ : skip space feed resume last (fuel + 1) first =
    if first < last ∧ space first then
      if feed first ∧ ((first + 1 : Nat) : Int) < resume (first + 1) ∧ resume (first + 1) ≤ last then
        skip space feed resume last fuel (resume (first + 1)).toNat
      else skip space feed resume last fuel (first + 1)
    else first :=
  rfl

/-- A turn of the trim goes back by one unit. -/
theorem trim_succ : trim space first (last + 1) =
    if first < last + 1 ∧ space last then trim space first last else last + 1 :=
  rfl

/-- The skip goes forward. -/
theorem le_skip : first ≤ skip space feed resume last fuel first := by
  induction fuel generalizing first with
  | zero => exact le_rfl
  | succ fuel ih =>
    rw [skip_succ]
    split_ifs with hspace hfeed
    · exact le_trans (by omega) (@ih (resume (first + 1)).toNat)
    · exact (Nat.le_succ first).trans ih
    · exact le_rfl

/-- The skip stops at the end. -/
theorem skip_le (h : first ≤ last) : skip space feed resume last fuel first ≤ last := by
  induction fuel generalizing first with
  | zero => exact h
  | succ fuel ih =>
    rw [skip_succ]
    split_ifs with hspace hfeed
    · exact ih (by omega)
    · exact ih hspace.1
    · exact h

/-- The walk reads what is before the end only. -/
theorem skip_congr {space' feed' : Nat → Bool}
    (h : ∀ i < last, space i = space' i ∧ feed i = feed' i) :
    skip space feed resume last fuel first = skip space' feed' resume last fuel first := by
  induction fuel generalizing first with
  | zero => rfl
  | succ fuel ih =>
    rw [skip_succ, skip_succ]
    by_cases hlt : first < last
    · rw [(h first hlt).1, (h first hlt).2, ih, ih]
    · rw [if_neg fun hs => hlt hs.1, if_neg fun hs => hlt hs.1]

/-- With enough turns the walk stops before no space. -/
theorem skip_stops (hfuel : last ≤ first + fuel) (h : skip space feed resume last fuel first < last) :
    space (skip space feed resume last fuel first) = false := by
  induction fuel generalizing first with
  | zero => exact absurd h (not_lt.2 hfuel)
  | succ fuel ih =>
    rw [skip_succ] at h ⊢
    split_ifs at h ⊢ with hspace hfeed
    · exact ih (by omega) h
    · exact ih (by omega) h
    · exact Bool.eq_false_iff.2 fun hs => hspace ⟨h, hs⟩

/-- What the walk passes is space, or it is between a feed and where the walk resumes. -/
theorem skip_passes {i : Nat} (hi : first ≤ i) (hi' : i < skip space feed resume last fuel first) :
    space i = true ∨ ∃ g, first < g ∧ g ≤ i ∧ feed (g - 1) = true ∧ (i : Int) < resume g ∧
      resume g ≤ last := by
  induction fuel generalizing first with
  | zero => exact absurd hi' (not_lt.2 hi)
  | succ fuel ih =>
    rw [skip_succ] at hi'
    split_ifs at hi' with hspace hfeed
    · rcases Nat.lt_or_ge i (resume (first + 1)).toNat with hlt | hge
      · rcases hi.eq_or_lt with rfl | hi
        · exact Or.inl hspace.2
        · exact Or.inr ⟨first + 1, Nat.lt_succ_self _, hi, hfeed.1, by omega, hfeed.2.2⟩
      · refine (ih hge hi').imp_right fun ⟨g, hg, h⟩ => ⟨g, ?_, h⟩
        omega
    · rcases hi.eq_or_lt with rfl | hi
      · exact Or.inl hspace.2
      · exact (ih hi hi').imp_right fun ⟨g, hg, h⟩ => ⟨g, (Nat.lt_succ_self first).trans hg, h⟩
    · exact absurd hi' (not_lt.2 hi)

/-- The walk passes all that is before where it resumes behind a feed. -/
theorem resume_le_skip (hconst : ∀ f g : Nat, f ≤ g → (g : Int) ≤ resume f → resume g = resume f)
    {g : Nat} (hg : first < g) (hg' : g ≤ skip space feed resume last fuel first)
    (hfeed : feed (g - 1) = true) :
    resume g ≤ skip space feed resume last fuel first ∨ (last : Int) < resume g := by
  induction fuel generalizing first with
  | zero => exact absurd hg' (not_le.2 hg)
  | succ fuel ih =>
    rw [skip_succ] at hg' ⊢
    split_ifs at hg' ⊢ with hspace hjump
    · rcases Nat.lt_or_ge (resume (first + 1)).toNat g with hlt | hge
      · exact ih hlt hg'
      · -- The feed is among what the walk passes at once, so it resumes at the same place.
        have hle := @le_skip space feed resume last fuel (resume (first + 1)).toNat
        have heq := hconst (first + 1) g hg (by omega)
        exact Or.inl (by omega)
    · rcases Nat.lt_or_ge (first + 1) g with hlt | hge
      · exact ih hlt hg'
      · obtain rfl : g = first + 1 := by omega
        have hle := @le_skip space feed resume last fuel (first + 1)
        by_contra hnot
        rw [not_or, not_le, not_lt] at hnot
        exact hjump ⟨hfeed, by omega, hnot.2⟩
    · exact absurd hg' (not_le.2 hg)

/-- What the walk passes is good where space is, and what is before where it resumes behind a feed
    that good places lead to. -/
theorem skip_good {good : Nat → Prop} (hspace : ∀ i, space i = true → good i)
    (hfeed : ∀ g, first < g → feed (g - 1) = true → (∀ j, first ≤ j → j < g → good j) →
      ∀ i, g ≤ i → (i : Int) < resume g → resume g ≤ last → good i) {i : Nat} (hi : first ≤ i)
    (hi' : i < skip space feed resume last fuel first) : good i := by
  induction i using Nat.strong_induction_on with
  | _ i ih =>
    rcases skip_passes hi hi' with h | ⟨g, hg, hgi, h, hlt, hle⟩
    · exact hspace i h
    · refine hfeed g hg h (fun j hj hj' => ih j (hj'.trans_le hgi) hj ?_) i hgi hlt hle
      exact (hj'.trans_le hgi).trans hi'

/-- The walk reaches the end where each place is space or before where it resumes behind a feed. -/
theorem skip_eq_iff (hconst : ∀ f g : Nat, f ≤ g → (g : Int) ≤ resume f → resume g = resume f)
    (hinside : ∀ g < last, resume g ≤ last) (hfirst : first ≤ last) (hfuel : last ≤ first + fuel) :
    skip space feed resume last fuel first = last ↔ ∀ i, first ≤ i → i < last →
      space i = true ∨ ∃ g, first < g ∧ g ≤ i ∧ feed (g - 1) = true ∧ (i : Int) < resume g := by
  constructor
  · intro h i hi hi'
    rcases skip_passes hi (h.symm ▸ hi') with hspace | ⟨g, hg, hgi, hfeed, hlt, -⟩
    · exact Or.inl hspace
    · exact Or.inr ⟨g, hg, hgi, hfeed, hlt⟩
  · intro h
    refine (skip_le hfirst).eq_of_not_lt fun hlt => ?_
    rcases h _ le_skip hlt with hspace | ⟨g, hg, hgi, hfeed, hresume⟩
    · exact Bool.false_ne_true ((skip_stops hfuel hlt).symm.trans hspace)
    · have hle := hinside g (hgi.trans_lt hlt)
      rcases resume_le_skip hconst hg hgi hfeed with hskip | hskip
      · exact absurd hresume (not_lt.2 hskip)
      · exact absurd hle (not_le.2 hskip)

/-- The trim goes back. -/
theorem trim_le : trim space first last ≤ last := by
  induction last with
  | zero => exact le_rfl
  | succ last ih =>
    rw [trim_succ]
    split
    · exact ih.trans (Nat.le_succ last)
    · exact le_rfl

/-- The trim stops at the start. -/
theorem le_trim (h : first ≤ last) : first ≤ trim space first last := by
  induction last with
  | zero => exact h
  | succ last ih =>
    rw [trim_succ]
    split
    · next hspace => exact ih (Nat.le_of_lt_succ hspace.1)
    · exact h

/-- What is trimmed is space. -/
theorem space_of_trim_le {i : Nat} (hi : trim space first last ≤ i) (hi' : i < last) :
    space i = true := by
  induction last with
  | zero => exact absurd hi' (Nat.not_lt_zero i)
  | succ last ih =>
    rw [trim_succ] at hi
    split at hi
    · next hspace =>
      rcases (Nat.le_of_lt_succ hi').eq_or_lt with rfl | hlt
      · exact hspace.2
      · exact ih hi hlt
    · exact absurd hi' (not_lt.2 hi)

end

/-! ## A bracket moved -/

/-- A bracketed stretch of a list: the opening bracket ends where its content starts, and the
    closing one starts where the content ends. -/
structure Bracket where
  start : Nat
  contentStart : Nat
  contentEnd : Nat
  stop : Nat

/-- A place in the opening bracket. -/
def Bracket.Opening (b : Bracket) (i : Nat) : Prop := b.start ≤ i ∧ i < b.contentStart

/-- A place in the closing bracket. -/
def Bracket.Closing (b : Bracket) (i : Nat) : Prop := b.contentEnd ≤ i ∧ i < b.stop

instance (b : Bracket) (i : Nat) : Decidable (b.Opening i) :=
  inferInstanceAs (Decidable (b.start ≤ i ∧ i < b.contentStart))

instance (b : Bracket) (i : Nat) : Decidable (b.Closing i) :=
  inferInstanceAs (Decidable (b.contentEnd ≤ i ∧ i < b.stop))

variable {α β : Type*}

/-- The stretch of a list between two places. -/
def slice (t : List α) (i j : Nat) : List α := (t.drop i).take (j - i)

/-- The brackets at the two edges of what remains between them. -/
def inward (t : List α) (b : Bracket) (first last : Nat) : List α :=
  t.take b.start ++ (slice t b.contentStart first ++ slice t b.start b.contentStart ++
    slice t first last ++ slice t b.contentEnd b.stop ++ slice t last b.contentEnd) ++ t.drop b.stop

theorem map_slice (g : α → β) (t : List α) (i j : Nat) : slice (t.map g) i j = (slice t i j).map g := by
  rw [slice, slice, List.map_take, List.map_drop]

/-- Moving the ends of a bracket does not look at the units. -/
theorem map_inward (g : α → β) (t : List α) (b : Bracket) (first last : Nat) :
    inward (t.map g) b first last = (inward t b first last).map g := by
  simp only [inward, map_slice, List.map_append, List.map_take, List.map_drop]

/-- A front is a shorter front with what is between. -/
theorem take_slice (t : List α) {i j : Nat} (h : i ≤ j) : t.take j = t.take i ++ slice t i j := by
  rw [slice, ← List.take_add, Nat.add_sub_cancel' h]

theorem length_slice {t : List α} {i j : Nat} (h : j ≤ t.length) : (slice t i j).length = j - i := by
  rw [slice, List.length_take, List.length_drop]
  omega

/-- The edges of what remains are in the content. -/
structure Bracket.Fits (b : Bracket) (first last n : Nat) : Prop where
  start_le : b.start ≤ b.contentStart
  le_first : b.contentStart ≤ first
  first_le : first ≤ last
  last_le : last ≤ b.contentEnd
  le_stop : b.contentEnd ≤ b.stop
  stop_le : b.stop ≤ n

/-- The brackets are around a content in a list of some length. -/
def Bracket.Sound (b : Bracket) (n : Nat) : Prop := b.Fits b.contentStart b.contentEnd n

section

variable {t : List α} {b : Bracket} {first last : Nat}

/-- The list in pieces. -/
theorem eq_slices (h : b.Fits first last t.length) :
    t = t.take b.start ++ (slice t b.start b.contentStart ++ (slice t b.contentStart first ++
      (slice t first last ++ (slice t last b.contentEnd ++ (slice t b.contentEnd b.stop ++
        t.drop b.stop))))) := by
  simp only [← List.append_assoc]
  rw [← take_slice t h.start_le, ← take_slice t h.le_first, ← take_slice t h.first_le,
    ← take_slice t h.last_le, ← take_slice t h.le_stop, List.take_append_drop]

/-- The pieces of the list, and the order they are put in. -/
theorem inward_split (h : b.Fits first last t.length) :
    ∃ before opening lead mid trail closing after : List α,
      t = before ++ (opening ++ (lead ++ (mid ++ (trail ++ (closing ++ after))))) ∧
      inward t b first last =
        before ++ (lead ++ (opening ++ (mid ++ (closing ++ (trail ++ after))))) ∧
      before.length = b.start ∧ opening.length = b.contentStart - b.start ∧
      lead.length = first - b.contentStart ∧ mid.length = last - first ∧
      trail.length = b.contentEnd - last ∧ closing.length = b.stop - b.contentEnd := by
  have hsplit := eq_slices h
  obtain ⟨hstart, hfirst, hmid, hlast, hstop, hlength⟩ := h
  refine ⟨t.take b.start, slice t b.start b.contentStart, slice t b.contentStart first,
    slice t first last, slice t last b.contentEnd, slice t b.contentEnd b.stop, t.drop b.stop,
    hsplit, ?_, ?_, length_slice (by omega), length_slice (by omega), length_slice (by omega),
    length_slice (by omega), length_slice hlength⟩
  · simp only [inward, List.append_assoc]
  · rw [List.length_take]
    omega

/-- Moving the ends of a bracket inward permutes the units. -/
theorem perm_inward (h : b.Fits first last t.length) : (inward t b first last).Perm t := by
  obtain ⟨before, opening, lead, mid, trail, closing, after, ht, hin, -⟩ := inward_split h
  rw [hin, ht]
  refine List.Perm.append_left before ?_
  rw [← List.append_assoc, ← List.append_assoc opening]
  refine List.Perm.append List.perm_append_comm (List.Perm.append_left mid ?_)
  rw [← List.append_assoc, ← List.append_assoc trail]
  exact List.Perm.append_right after List.perm_append_comm

/-- Around the brackets the list is as it was. -/
theorem getElem?_inward_outside (h : b.Fits first last t.length) {i : Nat}
    (hi : i < b.start ∨ b.stop ≤ i) : (inward t b first last)[i]? = t[i]? := by
  obtain ⟨before, opening, lead, mid, trail, closing, after, ht, hin, hb, ho, hl, hm, hr, hc⟩ :=
    inward_split h
  obtain ⟨hstart, hfirst, hmid, hlast, hstop, hlength⟩ := h
  rw [hin, ht]
  rcases hi with hi | hi
  · rw [List.getElem?_append_left (by omega), List.getElem?_append_left (by omega)]
  · -- The pieces before have the same length in either order.
    simp only [← List.append_assoc]
    rw [List.getElem?_append_right (by simp only [List.length_append]; omega),
      List.getElem?_append_right (by simp only [List.length_append]; omega)]
    congr 1
    simp only [List.length_append]
    omega

/-- What the opening bracket moves past comes before it. -/
theorem getElem?_inward_lead (h : b.Fits first last t.length) {i : Nat} (hi : b.start ≤ i)
    (hi' : i < b.start + (first - b.contentStart)) :
    (inward t b first last)[i]? = t[i + (b.contentStart - b.start)]? := by
  obtain ⟨before, opening, lead, mid, trail, closing, after, ht, hin, hb, ho, hl, -⟩ := inward_split h
  rw [hin, ht, List.getElem?_append_right (by omega), List.getElem?_append_left (by omega),
    List.getElem?_append_right (by omega), List.getElem?_append_right (by omega),
    List.getElem?_append_left (by omega)]
  congr 1
  omega

/-- Then comes the bracket itself. -/
theorem getElem?_inward_opening (h : b.Fits first last t.length) {i : Nat}
    (hi : b.start + (first - b.contentStart) ≤ i) (hi' : i < first) :
    (inward t b first last)[i]? = t[i - (first - b.contentStart)]? := by
  obtain ⟨before, opening, lead, mid, trail, closing, after, ht, hin, hb, ho, hl, -⟩ := inward_split h
  obtain ⟨hstart, hfirst, -⟩ := h
  rw [hin, ht, List.getElem?_append_right (by omega), List.getElem?_append_right (by omega),
    List.getElem?_append_left (by omega), List.getElem?_append_right (by omega),
    List.getElem?_append_left (by omega)]
  congr 1
  omega

/-- What remains between the brackets stays in place. -/
theorem getElem?_inward_mid (h : b.Fits first last t.length) {i : Nat} (hi : first ≤ i)
    (hi' : i < last) : (inward t b first last)[i]? = t[i]? := by
  obtain ⟨before, opening, lead, mid, trail, closing, after, ht, hin, hb, ho, hl, hm, -⟩ :=
    inward_split h
  obtain ⟨hstart, hfirst, hmid, -⟩ := h
  rw [hin, ht, List.getElem?_append_right (by omega), List.getElem?_append_right (by omega),
    List.getElem?_append_right (by omega), List.getElem?_append_left (by omega),
    List.getElem?_append_right (by omega), List.getElem?_append_right (by omega),
    List.getElem?_append_right (by omega), List.getElem?_append_left (by omega)]
  congr 1
  omega

/-- A property of what stands before what is kept, where it holds of what is moved past. -/
theorem pairwise_inward {r : α → α → Prop} (h : b.Fits first last t.length) (ht : t.Pairwise r)
    (hlead : ∀ y ∈ slice t b.contentStart first, ∀ x ∈ slice t b.start b.contentStart, r y x)
    (htrail : ∀ y ∈ slice t b.contentEnd b.stop, ∀ x ∈ slice t last b.contentEnd, r y x) :
    (inward t b first last).Pairwise r := by
  rw [eq_slices h] at ht
  simp only [inward, List.append_assoc]
  simp only [List.pairwise_append, List.mem_append] at ht ⊢
  grind

/-- What the brackets do not have in them keeps its order. -/
theorem filter_inward {p : α → Bool} (h : b.Fits first last t.length)
    (hopening : ∀ x ∈ slice t b.start b.contentStart, p x = false)
    (hclosing : ∀ x ∈ slice t b.contentEnd b.stop, p x = false) :
    (inward t b first last).filter p = t.filter p := by
  have hnone : (slice t b.start b.contentStart).filter p = [] :=
    List.filter_eq_nil_iff.2 fun x hx => by rw [hopening x hx]; exact Bool.false_ne_true
  have hnone' : (slice t b.contentEnd b.stop).filter p = [] :=
    List.filter_eq_nil_iff.2 fun x hx => by rw [hclosing x hx]; exact Bool.false_ne_true
  conv_rhs => rw [eq_slices h]
  simp only [inward, List.filter_append, hnone, hnone', List.nil_append, List.append_assoc]

end

/-! ## All brackets -/

section

variable (space feed : α → Bool) (resume : Nat → Int)

/-- The edges of what remains of the content of a bracket. -/
def edges (b : Bracket) (t : List α) : Nat × Nat :=
  let first := skip (fun i => t[i]?.any space) (fun i => t[i]?.any feed) resume b.contentEnd
    (b.contentEnd - b.contentStart) b.contentStart
  (first, trim (fun i => t[i]?.any space) first b.contentEnd)

/-- A bracket moved inward; where nothing would remain, it stays. -/
def push (b : Bracket) (t : List α) : List α :=
  let (first, last) := edges space feed resume b t
  if first = last ∨ first = b.contentStart ∧ last = b.contentEnd then t else inward t b first last

/-- The brackets moved one by one. -/
def pushAll : List Bracket → List α → List α
  | [], t => t
  | b :: bs, t => pushAll bs (push space feed resume b t)

end

section

variable {space feed : α → Bool} {resume : Nat → Int} {b : Bracket} {t : List α}

/-- A push of units is one of what they stand for. -/
theorem map_push (g : β → α) (t : List β) : push space feed resume b (t.map g) =
    (push (fun x => space (g x)) (fun x => feed (g x)) resume b t).map g := by
  have hany : ∀ (p : α → Bool) (i : Nat), (t.map g)[i]?.any p = t[i]?.any fun x => p (g x) := by
    intro p i
    rw [List.getElem?_map, Option.any_map]
  have hedges : edges space feed resume b (t.map g) =
      edges (fun x => space (g x)) (fun x => feed (g x)) resume b t := by
    simp only [edges, hany]
  rw [push, push, hedges]
  dsimp only
  split
  · rfl
  · exact map_inward g t b _ _

/-- Pushes of units are pushes of what they stand for. -/
theorem map_pushAll (g : β → α) (bs : List Bracket) (t : List β) :
    pushAll space feed resume bs (t.map g) =
      (pushAll (fun x => space (g x)) (fun x => feed (g x)) resume bs t).map g := by
  induction bs generalizing t with
  | nil => rfl
  | cons b bs ih => rw [pushAll, pushAll, map_push, ih]

/-- The edges found fit the bracket. -/
theorem fits_edges (h : b.Sound t.length) :
    b.Fits (edges space feed resume b t).1 (edges space feed resume b t).2 t.length where
  start_le := h.start_le
  le_first := le_skip
  first_le := le_trim (skip_le h.first_le)
  last_le := trim_le
  le_stop := h.le_stop
  stop_le := h.stop_le

/-- On the places themselves the walk reads the places. -/
theorem edges_range {p q : Nat → Bool} {n : Nat} (h : b.Sound n) :
    (edges p q resume b (List.range n)).1 =
      skip p q resume b.contentEnd (b.contentEnd - b.contentStart) b.contentStart := by
  refine skip_congr fun i hi => ?_
  rw [List.getElem?_range (hi.trans_le (h.le_stop.trans h.stop_le))]
  exact ⟨rfl, rfl⟩

/-- Something remains of the content where the walk from its start does not reach its end. -/
theorem edges_ne_iff (hcontent : b.contentStart ≤ b.contentEnd) :
    (edges space feed resume b t).1 ≠ (edges space feed resume b t).2 ↔
      (edges space feed resume b t).1 < b.contentEnd := by
  have hle : (edges space feed resume b t).1 ≤ b.contentEnd := skip_le hcontent
  constructor
  · intro h
    refine lt_of_le_of_ne hle fun heq => h ?_
    exact le_antisymm (le_trim hle) (trim_le.trans heq.ge)
  · intro h heq
    have hfuel : b.contentEnd ≤ b.contentStart + (b.contentEnd - b.contentStart) := by omega
    exact Bool.false_ne_true ((skip_stops hfuel h).symm.trans (space_of_trim_le heq.ge h))

variable (space feed resume b t) in
/-- A bracket is moved or the list stays as it is. -/
theorem push_cases : push space feed resume b t = t ∨
    (edges space feed resume b t).1 ≠ (edges space feed resume b t).2 ∧ push space feed resume b t =
      inward t b (edges space feed resume b t).1 (edges space feed resume b t).2 := by
  rw [push]
  dsimp only
  split
  · exact Or.inl rfl
  · next h => exact Or.inr ⟨fun heq => h (Or.inl heq), rfl⟩

/-- A bracket with something left in it is moved to its edges. -/
theorem push_of_lt (hmoved : (edges space feed resume b t).1 ≠ (edges space feed resume b t).2)
    (hlead : b.contentStart < (edges space feed resume b t).1) : push space feed resume b t =
      inward t b (edges space feed resume b t).1 (edges space feed resume b t).2 :=
  if_neg fun h => h.elim hmoved fun h => hlead.ne' h.1

end

/-! ## Brackets around a stretch -/

/-- A bracket around the stretch from `lo` to `hi`: neither the opening bracket nor what its content
    starts with before the stretch is space, and behind a feed in the content the walk does not
    resume past it. -/
structure Bracket.Around (space : Nat → Bool) (resume : Nat → Int) (b : Bracket) (lo hi : Nat) :
    Prop where
  start_lt : b.start < b.contentStart
  le_lo : b.contentStart ≤ lo
  lo_le : lo ≤ hi
  hi_le : hi ≤ b.contentEnd
  le_stop : b.contentEnd ≤ b.stop
  opening : ∀ i, b.Opening i → space i = false
  edge : b.contentStart < lo → space b.contentStart = false
  inside : ∀ g : Nat, g < b.contentEnd → resume g < b.contentEnd

/-- Brackets from the innermost outward, the first of them around the stretch from `lo` to `hi`. -/
def Nested (space : Nat → Bool) (resume : Nat → Int) (n : Nat) :
    (lo hi : Nat) → List Bracket → Prop
  | _, hi, [] => hi ≤ n
  | lo, hi, b :: bs => b.Around space resume lo hi ∧ Nested space resume n b.start b.stop bs

/-- Where a walk resumes: it is the same for all places that it passes at once, and not further on
    for an earlier place. -/
structure Resumes (resume : Nat → Int) : Prop where
  const : ∀ f g : Nat, f ≤ g → (g : Int) ≤ resume f → resume g = resume f
  le : ∀ f g : Nat, f ≤ g → resume f ≤ max (resume g) g

/-- What stands before what: `y` stands before `x` from the start, or an opening bracket has moved
    past `y`, or a closing one past `x`. -/
def Stands (space : Nat → Bool) (good : Nat → Prop) (bs : List Bracket) (y x : Nat) : Prop :=
  y < x ∨ (∃ b ∈ bs, b.Opening x ∧ (good y ∨ ∃ b', [b', b].Sublist bs ∧ b'.Opening y)) ∨
    ∃ b ∈ bs, b.Closing y ∧ space x = true

/-- A single bracket has no inner one to move past. -/
theorem stands_singleton {space : Nat → Bool} {good : Nat → Prop} {b : Bracket} {y x : Nat} :
    Stands space good [b] y x ↔
      y < x ∨ (b.Opening x ∧ good y) ∨ b.Closing y ∧ space x = true := by
  simp only [Stands, List.mem_singleton, exists_eq_left]
  refine or_congr_right (or_congr_left (and_congr_right fun _ => or_iff_left ?_))
  rintro ⟨b', hsub, -⟩
  exact absurd hsub.length_le (by simp)

section

variable {space feed : Nat → Bool} {resume : Nat → Int} {n lo hi : Nat} {b : Bracket}
  {bs : List Bracket} {t : List Nat}

/-- A bracket that lies within the text is sound. -/
theorem Bracket.Around.sound (hb : b.Around space resume lo hi) (hstop : b.stop ≤ n) : b.Sound n where
  start_le := hb.start_lt.le
  le_first := le_rfl
  first_le := hb.le_lo.trans (hb.lo_le.trans hb.hi_le)
  last_le := le_rfl
  le_stop := hb.le_stop
  stop_le := hstop

theorem Nested.le (h : Nested space resume n lo hi bs) : hi ≤ n := by
  induction bs generalizing lo hi with
  | nil => exact h
  | cons b bs ih => exact h.1.hi_le.trans (h.1.le_stop.trans (ih h.2))

/-- A unit of a slice stands at a place between its ends. -/
theorem mem_slice {i j v : Nat} (h : v ∈ slice t i j) : ∃ k, i ≤ k ∧ k < j ∧ t[k]? = some v := by
  obtain ⟨k, hk⟩ := List.getElem?_of_mem h
  have hlt : k < j - i := by
    have := (List.getElem?_eq_some_iff.1 hk).1
    rw [slice, List.length_take] at this
    omega
  rw [slice, List.getElem?_take_of_lt hlt, List.getElem?_drop] at hk
  exact ⟨i + k, Nat.le_add_right i k, by omega, hk⟩

/-- Outside the stretch the places are as they were. -/
def Outside (n lo hi : Nat) (t : List Nat) : Prop :=
  t.length = n ∧ ∀ i, i < lo ∨ hi ≤ i → t[i]? = (List.range n)[i]?

/-- Nothing has moved at first. -/
theorem outside_range : Outside n lo hi (List.range n) := ⟨List.length_range, fun _ _ => rfl⟩

/-- Outside of the stretch every unit is where it was. -/
theorem Outside.getElem? (h : Outside n lo hi t) {i : Nat} (hn : i < n) (ho : i < lo ∨ hi ≤ i) :
    t[i]? = some i := by
  rw [h.2 i ho, List.getElem?_range hn]

/-- A slice outside of the stretch has its own units. -/
theorem Outside.mem_slice (h : Outside n lo hi t) {i j v : Nat} (hj : j ≤ n) (ho : j ≤ lo ∨ hi ≤ i)
    (hv : v ∈ slice t i j) : i ≤ v ∧ v < j := by
  obtain ⟨k, hk, hk', heq⟩ := Inward.mem_slice hv
  rw [h.getElem? (by omega) (by omega), Option.some_inj] at heq
  omega

variable (hb : b.Around space resume lo hi) (hstop : b.stop ≤ n) (ho : Outside n lo hi t)

include hb hstop ho

variable (feed) in
/-- The edges of a bracket that lies around fit it. -/
theorem fits_around : b.Fits (edges space feed resume b t).1 (edges space feed resume b t).2 n :=
  ho.1 ▸ fits_edges (ho.1.symm ▸ hb.sound hstop)

/-- A push moves units of its bracket only. -/
theorem outside_push : Outside n b.start b.stop (push space feed resume b t) := by
  have hstart := hb.start_lt.le.trans hb.le_lo
  have hend := hb.hi_le.trans hb.le_stop
  have hfits := ho.1.symm ▸ fits_around feed hb hstop ho
  rcases push_cases space feed resume b t with heq | ⟨-, heq⟩
  · rw [heq]
    exact ⟨ho.1, fun i hi => ho.2 i (by omega)⟩
  · rw [heq]
    refine ⟨(perm_inward hfits).length_eq.trans ho.1, fun i hi => ?_⟩
    rw [getElem?_inward_outside hfits hi]
    exact ho.2 i (by omega)

/-- A push permutes the units. -/
theorem perm_push : (push space feed resume b t).Perm t := by
  have hfits := ho.1.symm ▸ fits_around feed hb hstop ho
  rcases push_cases space feed resume b t with heq | ⟨-, heq⟩
  · rw [heq]
  · rw [heq]
    exact perm_inward hfits

/-- What the opening bracket moves past in the list has its places before the bracket's. -/
theorem pairwise_push {r : Nat → Nat → Prop} (ht : t.Pairwise r)
    (hlead : ∀ i v, b.contentStart ≤ i → i < (edges space feed resume b t).1 → t[i]? = some v →
      ∀ x, b.Opening x → r v x)
    (htrail : ∀ y, b.Closing y → ∀ x, space x = true → r y x) :
    (push space feed resume b t).Pairwise r := by
  have hfits := ho.1.symm ▸ fits_around feed hb hstop ho
  rcases push_cases space feed resume b t with heq | ⟨-, heq⟩
  · rwa [heq]
  · rw [heq]
    refine pairwise_inward hfits ht (fun y hy x hx => ?_) fun y hy x hx => ?_
    · obtain ⟨i, hi, hi', hv⟩ := Inward.mem_slice hy
      exact hlead i y hi hi' hv x
        (ho.mem_slice (hb.le_lo.trans (hb.lo_le.trans (hb.hi_le.trans (hb.le_stop.trans hstop))))
          (Or.inl hb.le_lo) hx)
    · obtain ⟨i, hi, hi', hv⟩ := Inward.mem_slice hx
      have hspace := space_of_trim_le hi hi'
      rw [hv] at hspace
      exact htrail y (ho.mem_slice hstop (Or.inr hb.hi_le) hy) x hspace

/-- A push leaves all but the delimiters in their order. -/
theorem filter_push {p : Nat → Bool} (hp : ∀ i, b.Opening i ∨ b.Closing i → p i = false) :
    (push space feed resume b t).filter p = t.filter p := by
  have hfits := ho.1.symm ▸ fits_around feed hb hstop ho
  rcases push_cases space feed resume b t with heq | ⟨-, heq⟩
  · rw [heq]
  · rw [heq]
    refine filter_inward hfits (fun x hx => hp x (Or.inl ?_)) fun x hx => hp x (Or.inr ?_)
    · exact ho.mem_slice (hb.le_lo.trans (hb.lo_le.trans (hb.hi_le.trans (hb.le_stop.trans hstop))))
        (Or.inl hb.le_lo) hx
    · exact ho.mem_slice hstop (Or.inr hb.hi_le) hx

end

/-! ## What an outer bracket moves past -/

/-- What is at the front of a stretch, up to a place `w` that is no space: a walk that comes from
    before the stretch ends there, as it resumes nowhere behind it. -/
structure Walled (space feed : Nat → Bool) (resume : Nat → Int) (pass : Nat → Prop) (lo hi : Nat)
    (t : List Nat) (w : Nat) : Prop where
  le : lo ≤ w
  lt : w < hi
  pass : ∀ i v, lo ≤ i → i < w → t[i]? = some v → pass v
  stops : t[w]?.any space = false
  feeds : ∀ g, lo < g → g ≤ w → t[g - 1]?.any feed = true → resume g ≤ w

section

variable {space feed : Nat → Bool} {resume : Nat → Int} {pass p : Nat → Prop} {n lo hi w : Nat}
  {b : Bracket} {t : List Nat} (hb : b.Around space resume lo hi) (hstop : b.stop ≤ n)
  (ho : Outside n lo hi t)

include hb hstop ho

/-- An outer bracket moves past what is before the wall only. -/
theorem lead_walled (hw : Walled space feed resume pass lo hi t w) {i v : Nat}
    (hi : b.contentStart ≤ i) (hi' : i < (edges space feed resume b t).1) (hv : t[i]? = some v) :
    pass v := by
  have hend := hb.lo_le.trans (hb.hi_le.trans hb.le_stop)
  rcases hb.le_lo.eq_or_lt with heq | hlt
  · refine hw.pass i v (heq ▸ hi) ?_ hv
    by_contra hge
    -- A walk past the wall would have passed what stands there.
    rcases skip_passes (heq ▸ hw.le) (lt_of_le_of_lt (not_lt.1 hge) hi') with hspace |
      ⟨g, hg, hgw, hfeed, hresume, -⟩
    · exact Bool.false_ne_true (hw.stops.symm.trans hspace)
    · have := hw.feeds g (heq ▸ hg) hgw hfeed
      omega
  · rcases skip_passes le_rfl (lt_of_le_of_lt hi hi') with hspace | ⟨g, hg, hg', -⟩
    · rw [ho.getElem? (by omega) (Or.inl hlt), Option.any_some, hb.edge hlt] at hspace
      exact absurd hspace Bool.false_ne_true
    · omega

omit hstop in
/-- A bracket that stays is a wall itself. -/
theorem walled_still (heq : push space feed resume b t = t) (hn : b.start < n) :
    Walled space feed resume pass b.start b.stop (push space feed resume b t) b.start := by
  have hend := hb.lo_le.trans (hb.hi_le.trans hb.le_stop)
  have hstart := hb.start_lt
  have hle := hb.le_lo
  refine ⟨le_rfl, by omega, fun i v hi hi' => absurd hi (not_le.2 hi'), ?_, fun g hg hg' =>
    absurd hg (not_lt.2 hg')⟩
  rw [heq, ho.getElem? hn (Or.inl (hstart.trans_le hle)), Option.any_some]
  exact hb.opening b.start ⟨le_rfl, hstart⟩

/-- Once a bracket is moved, it is part of what an outer one can move past. -/
theorem walled_push (hresume : Resumes resume) (hfeed : ∀ v, feed v = true → space v = true)
    (hlead : ∀ i v, b.contentStart ≤ i → i < (edges space feed resume b t).1 → t[i]? = some v →
      pass v) (hpass : ∀ v, pass v → p v) (hopening : ∀ v, b.Opening v → p v) :
    ∃ w', Walled space feed resume p b.start b.stop (push space feed resume b t) w' := by
  have hfits := ho.1.symm ▸ fits_around feed hb hstop ho
  have hend := hb.lo_le.trans (hb.hi_le.trans hb.le_stop)
  have hle := hb.le_lo
  have hstart := hb.start_lt
  have hat : ∀ i, b.Opening i → t[i]? = some i := fun i hi =>
    ho.getElem? (by have := hi.2; omega) (Or.inl (hi.2.trans_le hb.le_lo))
  rcases push_cases space feed resume b t with heq | ⟨hne, heq⟩
  · exact ⟨b.start, walled_still hb ho heq (by omega)⟩
  · set first := (edges space feed resume b t).1 with hfirst
    have hlt : first < (edges space feed resume b t).2 := lt_of_le_of_ne hfits.first_le hne
    have hlast := hfits.last_le
    have hcontent := hfits.le_first
    have hstop' := hb.le_stop
    rw [heq]
    refine ⟨first, by omega, by omega, fun i v hi hi' hv => ?_, ?_, fun g hg hg' hg'' => ?_⟩
    -- In front of the opening now stands what it was moved past, and behind that the opening
    -- itself.
    · rcases Nat.lt_or_ge i (b.start + (first - b.contentStart)) with hlow | hhigh
      · rw [getElem?_inward_lead hfits hi hlow] at hv
        exact hpass v (hlead _ v (by omega) (by omega) hv)
      · rw [getElem?_inward_opening hfits hhigh hi'] at hv
        have hopen : b.Opening (i - (first - b.contentStart)) := ⟨by omega, by omega⟩
        rw [hat _ hopen, Option.some_inj] at hv
        exact hopening v (hv ▸ hopen)
    · rw [getElem?_inward_mid hfits le_rfl hlt]
      exact skip_stops (show b.contentEnd ≤ b.contentStart + (b.contentEnd - b.contentStart) by omega)
        (show first < b.contentEnd by omega)
    · rcases Nat.lt_or_ge (g - 1) (b.start + (first - b.contentStart)) with hlow | hhigh
      · -- The feed was passed by this bracket's walk, further on by the bracket's length.
        rw [getElem?_inward_lead hfits (by omega) hlow] at hg''
        obtain ⟨k, hk⟩ : ∃ k, k = g + (b.contentStart - b.start) := ⟨_, rfl⟩
        rw [show g - 1 + (b.contentStart - b.start) = k - 1 by omega] at hg''
        have hinside := hb.inside k (by omega)
        have hskip := resume_le_skip hresume.const (show b.contentStart < k by omega)
          (show k ≤ first by omega) hg''
        have hbefore := hresume.le g k (by omega)
        rcases hskip with hskip | hskip
        · have hk' : (k : Int) ≤ first := by omega
          exact hbefore.trans (max_le hskip hk')
        · omega
      · rw [getElem?_inward_opening hfits hhigh (by omega)] at hg''
        have hopen : b.Opening (g - 1 - (first - b.contentStart)) := ⟨by omega, by omega⟩
        rw [hat _ hopen, Option.any_some] at hg''
        have hspace := hfeed _ hg''
        rw [hb.opening _ hopen] at hspace
        exact absurd hspace Bool.false_ne_true

end

/-! ## All of them -/

section

variable {space feed : Nat → Bool} {resume : Nat → Int} {n lo hi w : Nat} {bs : List Bracket}
  {t : List Nat}

/-- Pushes permute the units. -/
theorem perm_pushAll (hbs : Nested space resume n lo hi bs) (ho : Outside n lo hi t) :
    (pushAll space feed resume bs t).Perm t := by
  induction bs generalizing lo hi t with
  | nil => exact List.Perm.refl t
  | cons b bs ih =>
    exact (ih hbs.2 (outside_push hbs.1 hbs.2.le ho)).trans (perm_push hbs.1 hbs.2.le ho)

/-- What is in no bracket keeps its order. -/
theorem filter_pushAll {p : Nat → Bool} (hbs : Nested space resume n lo hi bs)
    (ho : Outside n lo hi t) (hp : ∀ b ∈ bs, ∀ i, b.Opening i ∨ b.Closing i → p i = false) :
    (pushAll space feed resume bs t).filter p = t.filter p := by
  induction bs generalizing lo hi t with
  | nil => rfl
  | cons b bs ih =>
    obtain ⟨hb, hrest⟩ := List.forall_mem_cons.1 hp
    exact (ih hbs.2 (outside_push hbs.1 hbs.2.le ho) hrest).trans
      (filter_push hbs.1 hbs.2.le ho hb)

/-- Around the outermost brackets the list is as it was. -/
theorem getElem?_pushAll (hbs : Nested space resume n lo hi bs) (ho : Outside n lo hi t) {i : Nat}
    (hin : i < lo ∨ hi ≤ i) (hout : ∀ b ∈ bs, i < b.start ∨ b.stop ≤ i) :
    (pushAll space feed resume bs t)[i]? = (List.range n)[i]? := by
  induction bs generalizing lo hi t with
  | nil => exact ho.2 i hin
  | cons b bs ih =>
    obtain ⟨hb, hrest⟩ := List.forall_mem_cons.1 hout
    exact ih hbs.2 (outside_push hbs.1 hbs.2.le ho) hb hrest

/-- Brackets that are moved after others: they move past what those moved past, and past them. -/
theorem pairwise_pushAll_of {good : Nat → Prop} {done : List Bracket} (hresume : Resumes resume)
    (hfeed : ∀ v, feed v = true → space v = true) (hbs : Nested space resume n lo hi bs)
    (ho : Outside n lo hi t) (hw : Walled space feed resume
      (fun v => good v ∨ ∃ b ∈ done, b.Opening v) lo hi t w)
    (ht : t.Pairwise (Stands space good (done ++ bs))) :
    (pushAll space feed resume bs t).Pairwise (Stands space good (done ++ bs)) := by
  induction bs generalizing done lo hi w t with
  | nil => exact ht
  | cons b bs ih =>
    obtain ⟨hb, hrest⟩ := hbs
    have hlead : ∀ i v, b.contentStart ≤ i → i < (edges space feed resume b t).1 → t[i]? = some v →
        good v ∨ ∃ b ∈ done, b.Opening v := fun i v hi hi' hv => lead_walled hb hrest.le ho hw hi hi' hv
    have hmem : b ∈ done ++ b :: bs := List.mem_append_right done List.mem_cons_self
    have hpush : (push space feed resume b t).Pairwise (Stands space good (done ++ b :: bs)) :=
      pairwise_push hb hrest.le ho ht
      (fun i v hi hi' hv x hx => Or.inr (Or.inl ⟨b, hmem, hx, (hlead i v hi hi' hv).imp_right
        fun ⟨b', hb', hv'⟩ => ⟨b', List.Sublist.append (List.singleton_sublist.2 hb')
          (List.singleton_sublist.2 List.mem_cons_self), hv'⟩⟩))
      fun y hy x hx => Or.inr (Or.inr ⟨b, hmem, hy, hx⟩)
    obtain ⟨w', hw'⟩ := walled_push (p := fun v => good v ∨ ∃ b' ∈ done ++ [b], b'.Opening v)
      hb hrest.le ho hresume hfeed hlead
      (fun v hv => hv.imp_right fun ⟨b', hb', hv'⟩ => ⟨b', List.mem_append_left _ hb', hv'⟩)
      fun v hv => Or.inr ⟨b, List.mem_append_right _ List.mem_cons_self, hv⟩
    rw [List.append_cons] at hpush ⊢
    exact ih hrest (outside_push hb hrest.le ho) hw' hpush

variable {b : Bracket}

/-- Where the innermost bracket moves past good places only, each bracket moves past good places
    and inner brackets only. -/
theorem pairwise_pushAll {good : Nat → Prop} (hresume : Resumes resume)
    (hfeed : ∀ v, feed v = true → space v = true) (hbs : Nested space resume n lo hi (b :: bs))
    (hgood : ∀ i, b.contentStart ≤ i → i < (edges space feed resume b (List.range n)).1 → good i) :
    (pushAll space feed resume (b :: bs) (List.range n)).Pairwise (Stands space good (b :: bs)) := by
  obtain ⟨hb, hrest⟩ := hbs
  have ho : Outside n lo hi (List.range n) := outside_range
  have hlead : ∀ i v, b.contentStart ≤ i → i < (edges space feed resume b (List.range n)).1 →
      (List.range n)[i]? = some v → good v ∨ ∃ b ∈ ([] : List Bracket), b.Opening v := by
    intro i v hi hi' hv
    obtain ⟨hin, heq⟩ := List.getElem?_eq_some_iff.1 hv
    rw [List.getElem_range] at heq
    exact Or.inl (heq ▸ hgood i hi hi')
  have hpush : (push space feed resume b (List.range n)).Pairwise
      (Stands space good ([b] ++ bs)) := pairwise_push hb hrest.le ho
    (List.pairwise_lt_range.imp Or.inl)
    (fun i v hi hi' hv x hx => Or.inr (Or.inl ⟨b, List.mem_cons_self, hx,
      (hlead i v hi hi' hv).imp_right fun ⟨b', hb', _⟩ => absurd hb' List.not_mem_nil⟩))
    fun y hy x hx => Or.inr (Or.inr ⟨b, List.mem_cons_self, hy, hx⟩)
  obtain ⟨w', hw'⟩ := walled_push (p := fun v => good v ∨ ∃ b' ∈ [b], b'.Opening v)
    hb hrest.le ho hresume hfeed hlead
    (fun v hv => hv.imp_right fun ⟨b', hb', _⟩ => absurd hb' List.not_mem_nil)
    fun v hv => Or.inr ⟨b, List.mem_cons_self, hv⟩
  exact pairwise_pushAll_of hresume hfeed hrest (outside_push hb hrest.le ho) hw' hpush

/-- Where nothing would remain in the innermost bracket, all brackets stay. -/
theorem pairwise_pushAll_still {good : Nat → Prop} (hresume : Resumes resume)
    (hfeed : ∀ v, feed v = true → space v = true) (hbs : Nested space resume n lo hi (b :: bs))
    (hstill : push space feed resume b (List.range n) = List.range n) :
    (pushAll space feed resume (b :: bs) (List.range n)).Pairwise (Stands space good (b :: bs)) := by
  obtain ⟨hb, hrest⟩ := hbs
  have ho : Outside n lo hi (List.range n) := outside_range
  have hn : b.start < n := hb.start_lt.trans_le (hb.le_lo.trans (hb.lo_le.trans
    (hb.hi_le.trans (hb.le_stop.trans hrest.le))))
  have hpushed : (push space feed resume b (List.range n)).Pairwise
      (Stands space good ([b] ++ bs)) := hstill.symm ▸ List.pairwise_lt_range.imp Or.inl
  exact pairwise_pushAll_of hresume hfeed hrest (outside_push hb hrest.le ho)
    (walled_still hb ho hstill hn) hpushed

/-- Between brackets no unit is a delimiter. -/
theorem Nested.not_bracket (h : Nested space resume n lo hi bs) {j : Nat} (hj : lo ≤ j) (hj' : j < hi) :
    ∀ b ∈ bs, ¬(b.Opening j ∨ b.Closing j) := by
  induction bs generalizing lo hi with
  | nil => exact fun b hb => absurd hb List.not_mem_nil
  | cons b bs ih =>
    obtain ⟨hb, hrest⟩ := h
    have hlo := hb.le_lo
    have hhi := hb.hi_le
    refine List.forall_mem_cons.2 ⟨?_, ih hrest ?_ ?_⟩
    · rintro (hopen | hclose)
      · exact absurd hopen.2 (by omega)
      · exact absurd hclose.1 (by omega)
    · exact hb.start_lt.le.trans (hlo.trans hj)
    · exact hj'.trans_le (hhi.trans hb.le_stop)

/-- What the innermost bracket moves past comes before it, whatever it is. -/
theorem sublist_pushAll (hbs : Nested space resume n lo hi (b :: bs))
    (hmoved : (edges space feed resume b (List.range n)).1 ≠
      (edges space feed resume b (List.range n)).2)
    {i : Nat} (hcontent : b.contentStart ≤ i)
    (hfirst : i < (edges space feed resume b (List.range n)).1) :
    [i, b.start].Sublist (pushAll space feed resume (b :: bs) (List.range n)) := by
  obtain ⟨hb, hrest⟩ := hbs
  have ho : Outside n lo hi (List.range n) := outside_range
  have hfits := fits_around feed hb hrest.le ho
  have hfirst_le := hfits.first_le
  have hlast_le := hfits.last_le
  have hstop := hb.le_stop
  have hn := hrest.le
  have hrange : ∀ j a k, a ≤ j → j < k → k ≤ n → j ∈ slice (List.range n) a k := by
    intro j a k haj hjk hk
    refine List.mem_of_getElem? (i := j - a) ?_
    rw [slice, List.getElem?_take_of_lt (by omega), List.getElem?_drop, Nat.add_sub_cancel' haj,
      List.getElem?_range (by omega)]
  have hpushed : [i, b.start].Sublist (push space feed resume b (List.range n)) := by
    rw [push_of_lt hmoved (hcontent.trans_lt hfirst), inward]
    simp only [List.append_assoc]
    refine List.sublist_append_of_sublist_right ?_
    have hlead := List.singleton_sublist.2 (hrange i _ _ hcontent hfirst
      (hfirst_le.trans (hlast_le.trans (hstop.trans hn))))
    refine List.Sublist.append hlead (List.sublist_append_of_sublist_left ?_)
    exact List.singleton_sublist.2 (hrange b.start _ _ le_rfl hb.start_lt
      (hb.le_lo.trans (hb.lo_le.trans (hb.hi_le.trans (hstop.trans hn)))))
  -- The outer brackets keep the order of what is within them.
  classical
  have hpushedOutside : Outside n b.start b.stop (push space feed resume b (List.range n)) :=
    outside_push hb hrest.le ho
  have hkept : (pushAll space feed resume bs (push space feed resume b (List.range n))).filter
      (fun j => decide (∀ b' ∈ bs, ¬(b'.Opening j ∨ b'.Closing j))) = _ :=
    filter_pushAll hrest hpushedOutside fun b' hb' j hj => decide_eq_false fun h => h b' hb' hj
  have hwithin : ∀ j ∈ [i, b.start], decide (∀ b' ∈ bs, ¬(b'.Opening j ∨ b'.Closing j)) = true := by
    intro j hj
    refine decide_eq_true (hrest.not_bracket ?_ ?_)
    · rcases List.mem_cons.1 hj with rfl | hj
      · exact hb.start_lt.le.trans hcontent
      · exact (List.mem_singleton.1 hj).ge
    · rcases List.mem_cons.1 hj with rfl | hj
      · omega
      · rw [List.mem_singleton.1 hj]
        have := hb.start_lt
        omega
  have hfiltered := hpushed.filter fun j => decide (∀ b' ∈ bs, ¬(b'.Opening j ∨ b'.Closing j))
  rw [List.filter_eq_self.2 hwithin, ← hkept] at hfiltered
  exact hfiltered.trans List.filter_sublist

end

end Inward

end Flark
