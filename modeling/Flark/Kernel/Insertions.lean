import Flark.Kernel.Edits
import Flark.Parse.Lines

/-!
# Insertions

Edits that only put texts in a source, each further on than the one before, and the edits that take
the texts away again.

* `undo_insertions`: the edits that take the texts away give the source and every offset back;
* `substring_insertions`: a stretch with nothing put within it, as the result has it;
* `lineBound_insertions`: the lines start where the edits move their starts.
-/

namespace Flark

namespace Edits

/-- The edits only put texts in a source, one behind the other. -/
def Insertions (es : List Edit) : Prop :=
  (∀ e ∈ es, e.stop = e.start) ∧ es.Pairwise fun e e' => e.start < e'.start

/-- The edits that take away what insertions put, which the edits before them moved by `shift`. -/
def undoFrom : (shift : Int) → List Edit → List Edit
  | _, [] => []
  | shift, e :: es =>
    ⟨e.start + shift, e.start + shift + e.text.length, []⟩ :: undoFrom (shift + e.text.length) es

section

variable {source : Text} {c shift : Int} {es : List Edit} {e : Edit}

theorem Insertions.growth_head (h : Insertions (e :: es)) : e.growth = e.text.length := by
  rw [Edit.growth, h.1 e List.mem_cons_self, Int.sub_self, Int.sub_zero]

theorem Insertions.tail (h : Insertions (e :: es)) : Insertions es :=
  ⟨fun e' he' => h.1 e' (List.mem_cons_of_mem e he'), h.2.of_cons⟩

theorem Insertions.lt (h : Insertions (e :: es)) : ∀ e' ∈ es, e.start < e'.start :=
  (List.pairwise_cons.1 h.2).1

/-- Insertions at places of a source fit it. -/
theorem Insertions.fits (h : Insertions es) {n : Int} (hc : c ≤ n)
    (hes : ∀ e ∈ es, c ≤ e.start ∧ e.start ≤ n) : Fits n c es := by
  induction es generalizing c with
  | nil => exact hc
  | cons e es ih =>
    obtain ⟨hstart, hn⟩ := hes e List.mem_cons_self
    have hstop := h.1 e List.mem_cons_self
    refine ⟨hstart, by omega, ih h.tail (by omega) fun e' he' => ⟨?_, ?_⟩⟩
    · have := h.lt e' he'
      omega
    · exact (hes e' (List.mem_cons_of_mem e he')).2

/-- An offset goes behind a text that is put where it is. -/
theorem Insertions.forwardFrom_cons (h : Insertions (e :: es)) (o : Int) :
    forwardFrom o true shift (e :: es) =
      if o < e.start then o + shift else forwardFrom o true (shift + e.text.length) es := by
  rw [forwardFrom_caret, h.1 e List.mem_cons_self, h.growth_head]
  split_ifs <;> rfl

theorem Insertions.placeFrom_cons (h : Insertions (e :: es)) (o : Int) :
    forwardFrom o false shift (e :: es) =
      if o ≤ e.start then o + shift else forwardFrom o false (shift + e.text.length) es := by
  rw [forwardFrom_place, h.1 e List.mem_cons_self, h.growth_head]
  split_ifs <;> first | rfl | omega

theorem Insertions.le_forwardFrom (h : Insertions es) (o : Int) :
    o + shift ≤ forwardFrom o true shift es := by
  induction es generalizing shift with
  | nil => exact Int.le_refl _
  | cons e es ih =>
    have := @ih (shift + e.text.length) h.tail
    rw [h.forwardFrom_cons]
    split_ifs <;> omega

theorem Insertions.le_placeFrom (h : Insertions es) (o : Int) :
    o + shift ≤ forwardFrom o false shift es := by
  induction es generalizing shift with
  | nil => exact Int.le_refl _
  | cons e es ih =>
    have := @ih (shift + e.text.length) h.tail
    rw [h.placeFrom_cons]
    split_ifs <;> omega

/-- Offsets stay apart. -/
theorem Insertions.forwardFrom_lt (h : Insertions es) {o o' : Int} (hlt : o < o') :
    forwardFrom o true shift es < forwardFrom o' true shift es := by
  induction es generalizing shift with
  | nil =>
    rw [forwardFrom_nil, forwardFrom_nil]
    omega
  | cons e es ih =>
    have hle := @Insertions.le_forwardFrom (shift + e.text.length) es h.tail o'
    have := @ih (shift + e.text.length) h.tail
    rw [h.forwardFrom_cons, h.forwardFrom_cons]
    split_ifs <;> omega

/-- Before all texts, an offset stays where it is. -/
theorem forwardFrom_of_lt {caret : Bool} {o : Int} (h : ∀ e ∈ es, o < e.start) :
    forwardFrom o caret shift es = o + shift := by
  cases es with
  | nil => rfl
  | cons e es =>
    have hlt := h e List.mem_cons_self
    cases caret with
    | true => rw [forwardFrom_caret, if_pos hlt]
    | false => rw [forwardFrom_place, if_pos (Int.le_of_lt hlt)]

/-! ## Taking the texts away -/

/-- A text is taken away from where it is put. -/
theorem undoFrom_eq (h : Insertions es) : undoFrom shift es = es.map fun e =>
    ⟨forwardFrom e.start false shift es, forwardFrom e.start true shift es, []⟩ := by
  induction es generalizing shift with
  | nil => rfl
  | cons e es ih =>
    rw [undoFrom, ih h.tail, List.map_cons, h.placeFrom_cons, h.forwardFrom_cons,
      if_pos (Int.le_refl _), if_neg (Int.lt_irrefl _), forwardFrom_of_lt h.lt, Int.add_assoc]
    refine congrArg (List.cons _) (List.map_congr_left fun e' he' => ?_)
    have hlt := h.lt e' he'
    rw [h.placeFrom_cons, h.forwardFrom_cons, if_neg (by omega), if_neg (by omega)]

theorem applyFrom_undoFrom {result : Text} (h : Insertions es) (hes : Fits source.length c es)
    (hc : 0 ≤ c) (hshift : 0 ≤ c + shift)
    (hresult : result.drop (c + shift).toNat = applyFrom source c es) :
    applyFrom result (c + shift) (undoFrom shift es) = source.drop c.toNat := by
  induction es generalizing c shift with
  | nil =>
    have hle := hes.le
    rw [applyFrom_nil] at hresult
    rw [undoFrom, applyFrom_nil, Text.substring, List.take_of_length_le (by rw [List.length_drop]; omega),
      hresult, Text.substring, List.take_of_length_le (by rw [List.length_drop]; omega)]
  | cons e es ih =>
    obtain ⟨hstart, hle, hrest⟩ := hes
    have hstop := h.1 e List.mem_cons_self
    have hn := hrest.le
    have hlength := Text.length_substring (t := source) hc (show e.start ≤ source.length by omega)
    rw [applyFrom_cons] at hresult
    have hpiece : result.substring (c + shift) (e.start + shift) = source.substring c e.start := by
      rw [Text.substring, hresult, List.append_assoc]
      exact List.take_left' (by omega)
    have hbehind : result.drop (e.start + (shift + e.text.length)).toNat =
        applyFrom source e.start es := by
      rw [show (e.start + (shift + e.text.length)).toNat =
        (c + shift).toNat + ((source.substring c e.start) ++ e.text).length by
          rw [List.length_append]; omega, ← List.drop_drop, hresult, List.drop_left, hstop]
    have hrec := @ih e.start (shift + e.text.length) h.tail (hstop ▸ hrest) (by omega) (by omega)
      hbehind
    rw [undoFrom, applyFrom_cons]
    dsimp only
    rw [hpiece, Int.add_assoc e.start, hrec, List.append_nil]
    have hsplit := @Text.drop_split source c.toNat e.start.toNat (by omega)
    rw [Int.toNat_of_nonneg hc, Int.toNat_of_nonneg (by omega)] at hsplit
    exact hsplit.symm

theorem forwardFrom_undoFrom (h : Insertions es) (o : Int) :
    forwardFrom (forwardFrom o true shift es) true (-shift) (undoFrom shift es) = o := by
  induction es generalizing shift with
  | nil =>
    rw [undoFrom, forwardFrom_nil, forwardFrom_nil]
    omega
  | cons e es ih =>
    have hrec := @ih (shift + e.text.length) h.tail
    have hle := @Insertions.le_forwardFrom (shift + e.text.length) es h.tail o
    rw [h.forwardFrom_cons, undoFrom]
    split_ifs with hlt
    · rw [forwardFrom_caret, if_pos (by dsimp only; omega)]
      omega
    · rw [forwardFrom_caret, if_neg (by dsimp only; omega), if_neg (by dsimp only; omega), Edit.growth]
      simp only [List.length_nil]
      rw [show -shift + ((0 : Nat) - (e.start + shift + e.text.length - (e.start + shift)) : Int) =
        -(shift + e.text.length) by omega]
      exact hrec

/-- What takes the texts away gives the source and the offsets back. -/
theorem undo_insertions {made undone : Edits} (h : Insertions made.list)
    (hfits : Fits source.length 0 made.list) (hundone : undone.list = undoFrom 0 made.list) :
    undone.apply (made.apply source) = source ∧
      ∀ o, undone.forward (made.forward o true) true = o := by
  refine ⟨?_, fun o => ?_⟩
  · rw [apply, hundone]
    exact @applyFrom_undoFrom source 0 0 made.list (made.apply source) h hfits (Int.le_refl 0)
      (Int.le_refl 0) rfl
  · rw [forward, hundone]
    exact forwardFrom_undoFrom h o

/-! ## A stretch of the source -/

/-- An offset goes behind what is put where it is. -/
theorem forwardFrom_eq_add (h : Insertions es) (o : Int) :
    forwardFrom o true shift es = forwardFrom o false shift es +
      ((es.filter (·.start = o)).flatMap Edit.text).length := by
  induction es generalizing shift with
  | nil => exact (Int.add_zero _).symm
  | cons e es ih =>
    rw [h.forwardFrom_cons, h.placeFrom_cons]
    rcases lt_trichotomy o e.start with hlt | rfl | hgt
    · have hfilter : (e :: es).filter (·.start = o) = [] := List.filter_eq_nil_iff.2 fun e' he' => by
        rw [decide_eq_true_eq]
        rcases List.mem_cons.1 he' with rfl | he'
        · omega
        · have := h.lt e' he'
          omega
      rw [if_pos hlt, if_pos (Int.le_of_lt hlt), hfilter]
      exact (Int.add_zero _).symm
    · have hfilter : es.filter (·.start = e.start) = [] := List.filter_eq_nil_iff.2 fun e' he' => by
        have := h.lt e' he'
        rw [decide_eq_true_eq]
        omega
      rw [if_neg (Int.lt_irrefl _), if_pos (Int.le_refl _), forwardFrom_of_lt h.lt,
        List.filter_cons_of_pos (by rw [decide_eq_true_eq]), hfilter, List.flatMap_cons, List.flatMap_nil,
        List.append_nil, Int.add_assoc]
    · rw [if_neg (by omega), if_neg (by omega), ih h.tail,
        List.filter_cons_of_neg (by rw [decide_eq_true_eq]; omega)]

theorem substring_within {a b d : Int} (hc : 0 ≤ c) (hca : c ≤ a) (hbd : b ≤ d) :
    (source.substring c d).substring (a - c) (b - c) = source.substring a b := by
  rw [Text.substring, Text.substring, List.drop_take, List.drop_drop, List.take_take, Text.substring]
  congr 1
  · omega
  · congr 1
    omega

theorem substring_behind (X Y : Text) {u : Int} (hu : 0 ≤ u) (v : Int) :
    (X ++ Y).substring (X.length + u) (X.length + v) = Y.substring u v := by
  rw [Text.substring, Text.substring, show (X.length + u : Int).toNat = X.length + u.toNat by omega,
    ← List.drop_drop, List.drop_left]
  congr 1
  omega

theorem take_applyFrom {b : Int} (h : Fits source.length c es) (hc : 0 ≤ c)
    (hb : b ≤ source.length) (hes : ∀ e ∈ es, b ≤ e.start) :
    (applyFrom source c es).take (b - c).toNat = source.substring c b := by
  have hpiece {d : Int} (hbd : b ≤ d) :
      (source.substring c d).take (b - c).toNat = source.substring c b := by
    rw [Text.substring, List.take_take, Text.substring]
    congr 1
    omega
  cases es with
  | nil => exact hpiece hb
  | cons e es =>
    have hle := hes e List.mem_cons_self
    have hlength := Text.length_substring (t := source) hc (h.2.1.trans h.2.2.le)
    rw [applyFrom_cons, List.append_assoc, List.take_append_of_le_length (by omega)]
    exact hpiece hle

/-- A stretch of the result that starts behind the first text that is put. -/
theorem substring_past {e : Edit} {x : Int} (hc : 0 ≤ c) (hstart : c ≤ e.start)
    (hle : e.start ≤ source.length) (hx : e.start + (shift + e.text.length) ≤ x) (y : Int) :
    (source.substring c e.start ++ e.text ++ applyFrom source e.start es).substring
        (x - (c + shift)) (y - (c + shift)) =
      (applyFrom source e.start es).substring (x - (e.start + (shift + e.text.length)))
        (y - (e.start + (shift + e.text.length))) := by
  have hlength := Text.length_substring (t := source) hc hle
  have hprefix : ((source.substring c e.start ++ e.text).length : Int) =
      e.start - c + e.text.length := by
    rw [List.length_append]
    omega
  rw [← substring_behind (source.substring c e.start ++ e.text) (applyFrom source e.start es)
    (show 0 ≤ x - (e.start + (shift + e.text.length)) by omega), hprefix]
  congr 1 <;> omega

/-- What the result has in place of a stretch that starts where a text may be put, and within which
    and at the end of which none is. -/
theorem substring_insertions (h : Insertions es) (hes : Fits source.length c es) (hc : 0 ≤ c)
    {a b : Int} (hca : c ≤ a) (hab : a ≤ b) (hb : b ≤ source.length)
    (hbetween : ∀ e ∈ es, e.start < a ∨ e.start = a ∧ a < b ∨ b < e.start) :
    forwardFrom b true shift es = forwardFrom a false shift es +
        ((es.filter (·.start = a)).flatMap Edit.text).length + (b - a) ∧
      (applyFrom source c es).substring (forwardFrom a false shift es - (c + shift))
          (forwardFrom b true shift es - (c + shift)) =
        (es.filter (·.start = a)).flatMap Edit.text ++ source.substring a b := by
  -- By induction on the texts that are put: each is put in front of the stretch, at its start or
  -- behind it.
  induction es generalizing c shift with
  | nil =>
    rw [forwardFrom_nil, forwardFrom_nil, List.filter_nil, List.flatMap_nil, List.length_nil, applyFrom_nil,
      List.nil_append]
    refine ⟨by omega, ?_⟩
    rw [show a + shift - (c + shift) = a - c by omega,
      show b + shift - (c + shift) = b - c by omega]
    exact substring_within hc hca hb
  | cons e es ih =>
    obtain ⟨hstart, hle, hrest⟩ := hes
    have hstop := h.1 e List.mem_cons_self
    have hn := hrest.le
    have hlength := Text.length_substring (t := source) hc (show e.start ≤ source.length by omega)
    have hlater : ∀ e' ∈ es, e.start < e'.start := h.lt
    rw [hstop] at hrest
    rw [h.forwardFrom_cons, h.placeFrom_cons, applyFrom_cons, hstop]
    rcases hbetween e List.mem_cons_self with hlt | ⟨heq, hlt⟩ | hgt
    · -- The text is put before the stretch.
      obtain ⟨hforward, hrec⟩ := @ih e.start (shift + e.text.length) h.tail hrest (by omega) (by omega)
        fun e' he' => hbetween e' (List.mem_cons_of_mem e he')
      have hplace := @Insertions.le_placeFrom (shift + e.text.length) es h.tail a
      rw [if_neg (by omega), if_neg (by omega),
        List.filter_cons_of_neg (by rw [decide_eq_true_eq]; omega)]
      exact ⟨hforward, hrec ▸ substring_past hc hstart (by omega) (by omega) _⟩
    · -- The stretch starts with the text, and the others are put behind it.
      have hnone : ∀ e' ∈ es, b < e'.start := fun e' he' => by
        have := hlater e' he'
        rcases hbetween e' (List.mem_cons_of_mem e he') with h' | ⟨h', -⟩ | h' <;> omega
      have hfilter : es.filter (·.start = a) = [] := List.filter_eq_nil_iff.2 fun e' he' => by
        have := hlater e' he'
        rw [decide_eq_true_eq]
        omega
      rw [if_neg (by omega), if_pos (by omega), forwardFrom_of_lt hnone,
        List.filter_cons_of_pos (by rw [decide_eq_true_eq]; exact heq), hfilter]
      simp only [List.flatMap_cons, List.flatMap_nil, List.append_nil]
      refine ⟨by omega, ?_⟩
      rw [Text.substring, show (a + shift - (c + shift)).toNat = (source.substring c e.start).length by
        omega, List.append_assoc, List.drop_left, show
        (b + (shift + e.text.length) - (c + shift) - (a + shift - (c + shift))).toNat =
          e.text.length + (b - a).toNat by omega, List.take_length_add_append]
      have hrec := take_applyFrom (b := b) hrest (by omega) hb fun e' he' =>
        Int.le_of_lt (hnone e' he')
      rw [heq] at hrec
      rw [heq, hrec]
    · -- All texts are put behind the stretch.
      have hnone : ∀ e' ∈ e :: es, b < e'.start := List.forall_mem_cons.2 ⟨hgt, fun e' he' => by
        have := hlater e' he'
        omega⟩
      have hfilter : (e :: es).filter (·.start = a) = [] := List.filter_eq_nil_iff.2 fun e' he' => by
        have := hnone e' he'
        rw [decide_eq_true_eq]
        omega
      rw [if_pos (by omega), if_pos (by omega), hfilter, List.flatMap_nil, List.length_nil,
        List.nil_append]
      refine ⟨by omega, ?_⟩
      rw [show a + shift - (c + shift) = a - c by omega,
        show b + shift - (c + shift) = b - c by omega, List.append_assoc]
      rw [Text.substring_append (by omega) (by omega)]
      exact substring_within hc hca (Int.le_of_lt hgt)

/-- What the result has in place of a stretch that ends where a text may be put, and at the start of
    which and within which none is. -/
theorem substring_before (h : Insertions es) (hes : Fits source.length c es) (hc : 0 ≤ c)
    {a b : Int} (hca : c ≤ a) (hab : a ≤ b) (hb : b ≤ source.length)
    (hbetween : ∀ e ∈ es, e.start < a ∨ b ≤ e.start) :
    forwardFrom b false shift es = forwardFrom a false shift es + (b - a) ∧
      (applyFrom source c es).substring (forwardFrom a false shift es - (c + shift))
          (forwardFrom b false shift es - (c + shift)) = source.substring a b := by
  -- By induction on the texts that are put, from the left on, with the source that is copied up to
  -- each.
  induction es generalizing c shift with
  | nil =>
    rw [forwardFrom_nil, forwardFrom_nil, applyFrom_nil, show a + shift - (c + shift) = a - c by omega,
      show b + shift - (c + shift) = b - c by omega]
    exact ⟨by omega, substring_within hc hca hb⟩
  | cons e es ih =>
    obtain ⟨hstart, hle, hrest⟩ := hes
    have hstop := h.1 e List.mem_cons_self
    have hn := hrest.le
    have hlength := Text.length_substring (t := source) hc (show e.start ≤ source.length by omega)
    rw [hstop] at hrest
    rw [h.placeFrom_cons, h.placeFrom_cons, applyFrom_cons, hstop]
    rcases hbetween e List.mem_cons_self with hlt | hge
    · -- The text is put before the stretch.
      obtain ⟨hforward, hrec⟩ := @ih e.start (shift + e.text.length) h.tail hrest (by omega) (by omega)
        fun e' he' => hbetween e' (List.mem_cons_of_mem e he')
      have hplace := @Insertions.le_placeFrom (shift + e.text.length) es h.tail a
      rw [if_neg (by omega), if_neg (by omega)]
      exact ⟨hforward, hrec ▸ substring_past hc hstart (by omega) (by omega) _⟩
    · -- All texts are put behind the stretch.
      rw [if_pos (by omega), if_pos (by omega)]
      refine ⟨by omega, ?_⟩
      rw [show a + shift - (c + shift) = a - c by omega,
        show b + shift - (c + shift) = b - c by omega, List.append_assoc,
        Text.substring_append (by omega) (by omega)]
      exact substring_within hc hca hge

/-! ## The lines of the result -/

/-- Each text is put within a line, and holds no line ending. -/
def WithinLines (source : Text) (es : List Edit) : Prop :=
  ∀ e ∈ es, e.text ≠ [] ∧ (∀ u ∈ e.text, u ≠ 0x0A ∧ u ≠ 0x0D) ∧
    ∃ u, source[e.start.toNat]? = some u ∧ u ≠ 0x0A

theorem placeFrom_length (h : Insertions es) {o : Int} (hes : ∀ e ∈ es, e.start < o) :
    forwardFrom o false shift es = o + shift + growth es := by
  induction es generalizing shift with
  | nil => exact (Int.add_zero _).symm
  | cons e es ih =>
    obtain ⟨hlt, hrest⟩ := List.forall_mem_cons.1 hes
    rw [h.placeFrom_cons, if_neg (by omega), ih h.tail hrest, growth_cons, h.growth_head]
    omega

theorem head?_applyFrom (hes : Fits source.length c es) (hc : 0 ≤ c)
    (hlt : ∀ e ∈ es, c < e.start) : (applyFrom source c es).head? = source[c.toNat]? := by
  cases es with
  | nil =>
    have hle : c ≤ source.length := hes
    rw [applyFrom_nil, Text.substring, List.take_of_length_le (by rw [List.length_drop]; omega),
      List.head?_drop]
  | cons e es =>
    have hlt := hlt e List.mem_cons_self
    obtain ⟨k, hk⟩ := Nat.exists_eq_add_of_lt (show 0 < (e.start - c).toNat by omega)
    have hn := hes.2.2.le
    have hle := hes.2.1
    have hpiece : (source.substring c e.start).head? = source[c.toNat]? := by
      rw [Text.substring, hk, List.head?_take, if_neg (by omega), List.head?_drop]
    rw [applyFrom_cons, List.append_assoc, List.head?_append, hpiece,
      List.getElem?_eq_getElem (show c.toNat < source.length by omega)]
    rfl

/-- The lines of the result start where the edits move the starts of the source's lines. -/
theorem lineStartsFrom_applyFrom (h : Insertions es) (hes : Fits source.length c es) (hc : 0 ≤ c)
    (hwithin : WithinLines source es) {pos pos' : Nat} (hpos : (pos : Int) = c)
    (hpos' : (pos' : Int) = c + shift) :
    (lineStartsFrom pos' (applyFrom source c es)).map (Nat.cast : Nat → Int) =
      (lineStartsFrom pos (source.drop pos)).map fun p : Nat => forwardFrom p false shift es := by
  induction es generalizing c shift pos pos' with
  | nil =>
    have hle := hes.le
    rw [applyFrom_nil, Text.substring, List.take_of_length_le (by rw [List.length_drop]; omega),
      show c.toNat = pos by omega]
    exact lineStartsFrom_shift (by omega)
  | cons e es ih =>
    obtain ⟨⟨hne, hplain, u, hu, hu'⟩, hlater⟩ := List.forall_mem_cons.1 hwithin
    obtain ⟨hstart, hle, hrest⟩ := hes
    have hstop := h.1 e List.mem_cons_self
    have hn := hrest.le
    rw [hstop] at hrest
    have hlength := Text.length_substring (t := source) hc (show e.start ≤ source.length by omega)
    -- Neither the text nor what stands behind it begins with a line feed.
    have hhead : (e.text ++ applyFrom source e.start es).head? ≠ some 0x0A := by
      obtain ⟨v, text, htext⟩ := List.exists_cons_of_ne_nil hne
      rw [htext, List.cons_append, List.head?_cons]
      exact fun heq => (hplain v (htext ▸ List.mem_cons_self)).1 (Option.some.inj heq)
    have hunit : source[e.start.toNat]? ≠ some 0x0A := by
      rw [hu]
      exact fun heq => hu' (Option.some.inj heq)
    have hbehind : (applyFrom source e.start es).head? ≠ some 0x0A := by
      rwa [head?_applyFrom hrest (hc.trans hstart) h.lt]
    have hdrop : (source.drop e.start.toNat).head? ≠ some 0x0A := by
      rwa [List.head?_drop]
    have hsplit := @Text.drop_split source pos e.start.toNat (by omega)
    rw [hpos, Int.toNat_of_nonneg (hc.trans hstart)] at hsplit
    have hrec := @ih e.start (shift + e.text.length) h.tail hrest (hc.trans hstart) hlater
      e.start.toNat (pos' + (source.substring c e.start).length + e.text.length) (by omega)
      (by omega)
    rw [applyFrom_cons, hstop, List.append_assoc, lineStartsFrom_append hhead,
      lineStartsFrom_append hbehind, lineStartsFrom_plain hplain, List.nil_append, List.map_append,
      hrec, hsplit, lineStartsFrom_append hdrop, List.map_append,
      show pos + (source.substring c e.start).length = e.start.toNat by omega]
    congr 1
    · rw [lineStartsFrom_shift (show (pos' : Int) = pos + shift by omega)]
      refine List.map_congr_left fun p hp => ?_
      obtain ⟨q, rfl, hq⟩ := mem_lineStartsFrom.1 hp
      have := hq.le_length
      rw [h.placeFrom_cons, if_pos (by omega)]
    · refine List.map_congr_left fun p hp => ?_
      obtain ⟨q, rfl, i, -, rfl, -⟩ := mem_lineStartsFrom.1 hp
      rw [h.placeFrom_cons, if_neg (by omega)]

/-- Insertions within lines leave the lines as they are. -/
theorem lineBound_insertions {made : Edits} (h : Insertions made.list)
    (hfits : Fits source.length 0 made.list) (hwithin : WithinLines source made.list) (l : Nat) :
    (lineBound (made.apply source) l : Int) = made.forward (lineBound source l) false := by
  have hstarts : (lineStarts (made.apply source)).map (Nat.cast : Nat → Int) =
      (lineStarts source).map fun p : Nat => made.forward p false := by
    have hzero : made.forward 0 false = 0 := by
      rw [forward]
      cases hlist : made.list with
      | nil => rfl
      | cons e es =>
        rw [hlist] at hfits h
        rw [h.placeFrom_cons, if_pos hfits.1]
        rfl
    rw [lineStarts, lineStarts, List.map_cons, List.map_cons, apply,
      @lineStartsFrom_applyFrom source 0 0 made.list h hfits (Int.le_refl 0) hwithin 0 0 rfl rfl]
    exact congrArg (· :: _) hzero.symm
  have hlength : ((made.apply source).length : Int) = made.forward source.length false := by
    rw [apply, length_applyFrom hfits (Int.le_refl 0), forward, placeFrom_length h fun e he => ?_]
    · omega
    · obtain ⟨-, -, u, hu, -⟩ := hwithin e he
      have := (List.getElem?_eq_some_iff.1 hu).1
      omega
  have hget := congrArg (·[l]?) hstarts
  simp only [List.getElem?_map] at hget
  rw [lineBound, lineBound, List.getD_eq_getElem?_getD, List.getD_eq_getElem?_getD]
  cases hl : (lineStarts (made.apply source))[l]? with
  | none =>
    rw [hl] at hget
    rw [Option.map_eq_none_iff.1 hget.symm]
    exact hlength
  | some p =>
    rw [hl] at hget
    obtain ⟨q, hq, hp⟩ := Option.map_eq_some_iff.1 hget.symm
    rw [hq]
    exact hp.symm

end

end Edits

end Flark
