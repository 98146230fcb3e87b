import Mathlib.Data.Int.Order.Basic
import Mathlib.Data.List.Basic

/-!
# Changes at the fronts of lines

A text of lines with a break between each two, and changes of it that take units off the fronts of
neighbouring lines and put a piece there. `splice` makes changes one after the other, and `mapped`
says where a position goes: one at the front of a line goes behind the piece.

* `splice_placed`: the lines that result;
* `mapped_placed_bounds`: a position goes into the text that results;
* `mapped_undo`: a position comes back where pieces are put there and taken away again.
-/

namespace Flark

namespace Fronts

variable {α : Type*}

/-- A change of a text: units removed at a place, and a piece put there. -/
structure Change (α : Type*) where
  at_ : Nat
  removed : Nat
  inserted : List α
  deriving DecidableEq

/-- A text from `from_` on to `stop`, with changes made. -/
def splice (text : List α) (stop : Nat) : (from_ : Nat) → List (Change α) → List α
  | from_, [] => (text.drop from_).take (stop - from_)
  | from_, c :: cs =>
    (text.drop from_).take (c.at_ - from_) ++ c.inserted ++ splice text stop (c.at_ + c.removed) cs

/-- Where a position goes, which the changes before these moved by `delta`. -/
def mapped (position : Int) : (delta : Int) → List (Change α) → Int
  | delta, [] => position + delta
  | delta, c :: cs =>
    if position < c.at_ then position + delta
    else if position ≤ c.at_ + c.removed then c.at_ + delta + c.inserted.length
    else mapped position (delta + c.inserted.length - c.removed) cs

/-- A line, how much is taken off its front, and what is put there. -/
structure Front (α : Type*) where
  line : List α
  cut : Nat
  piece : List α

/-- The line that results. -/
def Front.result (f : Front α) : List α := f.piece ++ f.line.drop f.cut

/-- The changes of neighbouring lines, the first of which begins at `base`. -/
def placed : (base : Nat) → List (Front α) → List (Change α)
  | _, [] => []
  | base, f :: fs => ⟨base, f.cut, f.piece⟩ :: placed (base + f.line.length + 1) fs

/-- What is behind a line: a break and the lines after it. -/
def behind (br : α) : List (List α) → List α
  | [] => []
  | l :: ls => br :: [br].intercalate (l :: ls)

theorem intercalate_cons (br : α) (l : List α) (ls : List (List α)) :
    [br].intercalate (l :: ls) = l ++ behind br ls := by
  cases ls with
  | nil => rw [List.intercalate_singleton, behind, List.append_nil]
  | cons l' ls =>
    rw [List.intercalate_cons_cons, behind, List.append_assoc]
    rfl

/-- Where the last line begins. -/
def lastStart : List (List α) → Nat
  | [] => 0
  | [_] => 0
  | l :: l' :: ls => l.length + 1 + lastStart (l' :: ls)

theorem exists_last (br : α) (l : List α) (ls : List (List α)) :
    ∃ M, ∃ l' ∈ l :: ls, [br].intercalate (l :: ls) = M ++ l' ∧ M.length = lastStart (l :: ls) ∧
      ∀ u ∈ M.getLast?, u = br := by
  induction ls generalizing l with
  | nil => exact ⟨[], l, List.mem_cons_self, List.intercalate_singleton, rfl, fun _ h => nomatch h⟩
  | cons l' ls ih =>
    obtain ⟨M, last, hmem, heq, hlength, hM⟩ := ih l'
    refine ⟨l ++ [br] ++ M, last, List.mem_cons_of_mem l hmem, ?_, ?_, ?_⟩
    · rw [intercalate_cons, behind, heq, List.append_assoc, List.append_assoc]
      rfl
    · rw [lastStart, List.length_append, List.length_append, hlength]
      rfl
    · intro u hu
      rcases List.eq_nil_or_concat M with rfl | ⟨M, v, rfl⟩
      · rw [List.append_nil, List.getLast?_concat] at hu
        exact (Option.some.inj hu).symm
      · rw [List.concat_eq_append] at hu hM
        rw [← List.append_assoc, List.getLast?_concat] at hu
        exact hM u (by rw [List.getLast?_concat]; exact hu)

variable {br : α} {text A B : List α} {f : Front α} {fs : List (Front α)}

/-! ## The text that results -/

theorem splice_behind {stop : Nat}
    (htext : text = A ++ [br].intercalate ((f :: fs).map Front.line) ++ B)
    (hstop : stop = A.length + ([br].intercalate ((f :: fs).map Front.line)).length)
    (hcut : ∀ g ∈ f :: fs, g.cut ≤ g.line.length) :
    splice text stop (A.length + f.cut) (placed (A.length + f.line.length + 1) fs) =
      f.line.drop f.cut ++ behind br (fs.map Front.result) := by
  induction fs generalizing A f with
  | nil =>
    have hf := hcut f List.mem_cons_self
    rw [List.map_cons, List.map_nil, List.intercalate_singleton] at htext hstop
    rw [placed, splice, List.map_nil, behind, List.append_nil, htext, List.append_assoc,
      List.drop_length_add_append, List.drop_append_of_le_length hf,
      List.take_left' (by rw [List.length_drop]; omega)]
  | cons g fs ih =>
    have hf := hcut f List.mem_cons_self
    rw [List.map_cons, intercalate_cons, List.map_cons, behind] at htext hstop
    have htext' :
        text = (A ++ f.line ++ [br]) ++ [br].intercalate ((g :: fs).map Front.line) ++ B := by
      rw [htext, List.map_cons]
      simp only [List.append_assoc, List.cons_append, List.nil_append]
    have hlength : (A ++ f.line ++ [br]).length = A.length + f.line.length + 1 := by
      simp only [List.length_append, List.length_singleton]
    have hrec := ih htext' (by
      rw [hstop, hlength, List.map_cons]
      simp only [List.length_append, List.length_cons]
      omega) fun h hh => hcut h (List.mem_cons_of_mem f hh)
    rw [hlength] at hrec
    rw [placed, splice, hrec, List.map_cons, behind, intercalate_cons]
    have hpart : (text.drop (A.length + f.cut)).take
        (A.length + f.line.length + 1 - (A.length + f.cut)) = f.line.drop f.cut ++ [br] := by
      rw [htext', List.append_assoc, List.append_assoc, List.append_assoc,
        List.drop_length_add_append, List.drop_append_of_le_length hf, ← List.append_assoc]
      refine List.take_left' ?_
      rw [List.length_append, List.length_drop, List.length_singleton]
      omega
    dsimp only
    rw [hpart, Front.result]
    simp only [List.append_assoc, List.cons_append, List.nil_append]

/-- The changes of neighbouring lines give those lines changed. -/
theorem splice_placed {stop : Nat}
    (htext : text = A ++ [br].intercalate ((f :: fs).map Front.line) ++ B)
    (hstop : stop = A.length + ([br].intercalate ((f :: fs).map Front.line)).length)
    (hcut : ∀ g ∈ f :: fs, g.cut ≤ g.line.length) :
    splice text stop A.length (placed A.length (f :: fs)) =
      [br].intercalate ((f :: fs).map Front.result) := by
  rw [placed, splice, splice_behind htext hstop hcut, Nat.sub_self, List.take_zero, List.nil_append,
    List.map_cons, intercalate_cons, Front.result, List.append_assoc]

/-! ## Where a position goes -/

/-- A position does not go further than the text that results, counted from the first line on. -/
theorem mapped_placed_bounds {p delta : Int} {base b : Nat}
    (hcut : ∀ g ∈ f :: fs, g.cut ≤ g.line.length) (hbase : base ≤ p)
    (hp : p ≤ base + ([br].intercalate ((f :: fs).map Front.line)).length + b) :
    base + delta ≤ mapped p delta (placed base (f :: fs)) ∧
      mapped p delta (placed base (f :: fs)) ≤
        base + delta + ([br].intercalate ((f :: fs).map Front.result)).length + b := by
  have hresult (g : Front α) (hg : g.cut ≤ g.line.length) :
      (g.result.length : Int) = g.piece.length + g.line.length - g.cut := by
    rw [Front.result, List.length_append, List.length_drop]
    omega
  -- By induction on the lines, with what those before have added.
  induction fs generalizing f base delta with
  | nil =>
    have hf := hresult f (hcut f List.mem_cons_self)
    have hf' := hcut f List.mem_cons_self
    simp only [List.map_cons, List.map_nil, List.intercalate_singleton] at hp ⊢
    simp only [placed, mapped]
    split_ifs <;> omega
  | cons g fs ih =>
    have hf := hresult f (hcut f List.mem_cons_self)
    have hf' := hcut f List.mem_cons_self
    have hrest : ∀ h ∈ g :: fs, h.cut ≤ h.line.length := fun h hh =>
      hcut h (List.mem_cons_of_mem f hh)
    have hlines (F : Front α → List α) : ([br].intercalate ((f :: g :: fs).map F)).length =
        (F f).length + 1 + ([br].intercalate ((g :: fs).map F)).length := by
      rw [List.map_cons, intercalate_cons, List.length_append, List.map_cons, behind,
        List.length_cons]
      omega
    rw [hlines] at hp ⊢
    rw [placed, mapped]
    split_ifs with hlt hle
    · dsimp only at hlt
      omega
    · dsimp only at hle ⊢
      omega
    · dsimp only at hle ⊢
      by_cases hnext : p < (base + f.line.length + 1 : Nat)
      · rw [placed, mapped, if_pos hnext]
        omega
      · have := @ih g (delta + f.piece.length - f.cut) (base + f.line.length + 1) hrest (by omega)
          (by omega)
        omega

/-- A position in the first line stays there. -/
theorem mapped_first {p delta : Int} {base : Nat} (hf : f.cut ≤ f.line.length)
    (hp : p ≤ base + f.line.length) :
    mapped p delta (placed base (f :: fs)) ≤ base + delta + f.result.length := by
  have hresult : (f.result.length : Int) = f.piece.length + f.line.length - f.cut := by
    rw [Front.result, List.length_append, List.length_drop]
    omega
  rw [placed, mapped]
  split_ifs with hlt hle
  · dsimp only at hlt
    omega
  · dsimp only
    omega
  · dsimp only at hle ⊢
    cases fs with
    | nil =>
      rw [placed, mapped]
      omega
    | cons g fs =>
      rw [placed, mapped, if_pos (by dsimp only; omega)]
      omega

/-- A position behind the lines stays behind them. -/
theorem mapped_behind {p delta : Int} {base : Nat} (hcut : ∀ g ∈ f :: fs, g.cut ≤ g.line.length)
    (hp : base + ([br].intercalate ((f :: fs).map Front.line)).length < p) :
    mapped p delta (placed base (f :: fs)) =
      p + delta + ([br].intercalate ((f :: fs).map Front.result)).length -
        ([br].intercalate ((f :: fs).map Front.line)).length := by
  induction fs generalizing f base delta with
  | nil =>
    have hf := hcut f List.mem_cons_self
    simp only [List.map_cons, List.map_nil, List.intercalate_singleton] at hp ⊢
    rw [placed, mapped, if_neg (by dsimp only; omega), if_neg (by dsimp only; omega), placed, mapped,
      Front.result, List.length_append, List.length_drop]
    dsimp only
    omega
  | cons g fs ih =>
    have hf := hcut f List.mem_cons_self
    have hrest : ∀ h ∈ g :: fs, h.cut ≤ h.line.length := fun h hh =>
      hcut h (List.mem_cons_of_mem f hh)
    have hlines (F : Front α → List α) : ([br].intercalate ((f :: g :: fs).map F)).length =
        (F f).length + 1 + ([br].intercalate ((g :: fs).map F)).length := by
      rw [List.map_cons, intercalate_cons, List.length_append, List.map_cons, behind,
        List.length_cons]
      omega
    rw [hlines] at hp ⊢
    rw [hlines, placed, mapped, if_neg (by dsimp only; omega), if_neg (by dsimp only; omega)]
    dsimp only
    rw [@ih g _ (base + f.line.length + 1) hrest (by omega), Front.result, List.length_append,
      List.length_drop]
    omega

/-- A position behind the front of the last line stays behind it. -/
theorem lastStart_lt_mapped {p delta : Int} {base : Nat}
    (hcut : ∀ g ∈ f :: fs, g.cut = 0) (hp : base + lastStart ((f :: fs).map Front.line) < p) :
    base + delta + lastStart ((f :: fs).map Front.result) <
      mapped p delta (placed base (f :: fs)) := by
  induction fs generalizing f base delta with
  | nil =>
    have hf := hcut f List.mem_cons_self
    simp only [List.map_cons, List.map_nil, lastStart] at hp ⊢
    rw [placed, mapped, if_neg (by dsimp only; omega), if_neg (by dsimp only; omega), placed, mapped]
    dsimp only
    omega
  | cons g fs ih =>
    have hf := hcut f List.mem_cons_self
    have hrest : ∀ h ∈ g :: fs, h.cut = 0 := fun h hh => hcut h (List.mem_cons_of_mem f hh)
    rw [List.map_cons, List.map_cons, lastStart, ← List.map_cons] at hp ⊢
    have := @ih g (delta + f.piece.length - f.cut) (base + f.line.length + 1) hrest (by omega)
    rw [placed, mapped, if_neg (by dsimp only; omega), if_neg (by dsimp only; omega)]
    dsimp only
    rw [Front.result, List.length_append, List.length_drop]
    omega

section

/-- The front that takes the piece away again. -/
def Front.undo (f : Front α) : Front α := ⟨f.result, f.piece.length, []⟩

theorem Front.undo_result (f : Front α) : f.undo.result = f.line.drop f.cut := by
  rw [Front.result, Front.undo]
  exact List.drop_left

variable (hcut : ∀ f ∈ fs, f.cut = 0)

include hcut

theorem add_le_mapped {p delta : Int} {base : Nat} :
    p + delta ≤ mapped p delta (placed base fs) := by
  induction fs generalizing base delta with
  | nil => exact le_rfl
  | cons f fs ih =>
    have hf := hcut f List.mem_cons_self
    have hrec := @ih (fun g hg => hcut g (List.mem_cons_of_mem f hg))
      (delta + f.piece.length - f.cut) (base + f.line.length + 1)
    rw [placed, mapped]
    split_ifs with hlt hle
    · exact le_rfl
    · dsimp only at hle ⊢
      omega
    · dsimp only
      omega

/-- Pieces put there keep positions apart, and in order. -/
theorem mapped_lt {p q delta : Int} {base : Nat} (hlt : p < q) :
    mapped p delta (placed base fs) < mapped q delta (placed base fs) := by
  induction fs generalizing base delta with
  | nil =>
    rw [placed, mapped, mapped]
    omega
  | cons f fs ih =>
    have hf := hcut f List.mem_cons_self
    have hcut' : ∀ g ∈ fs, g.cut = 0 := fun g hg => hcut g (List.mem_cons_of_mem f hg)
    have hrec := @ih hcut' (delta + f.piece.length - f.cut) (base + f.line.length + 1)
    have hq := @add_le_mapped _ _ hcut' q (delta + f.piece.length - f.cut)
      (base + f.line.length + 1)
    rw [placed, mapped, mapped]
    dsimp only
    split_ifs <;> omega

/-- A position comes back where the pieces are taken away again. -/
theorem mapped_undo {p delta : Int} {base base' : Nat} (hbase : (base' : Int) = base + delta) :
    mapped (mapped p delta (placed base fs)) (-delta) (placed base' (fs.map Front.undo)) = p := by
  induction fs generalizing base base' delta with
  | nil =>
    rw [placed, mapped, List.map_nil, placed, mapped]
    omega
  | cons f fs ih =>
    have hf := hcut f List.mem_cons_self
    have hcut' : ∀ g ∈ fs, g.cut = 0 := fun g hg => hcut g (List.mem_cons_of_mem f hg)
    have hresult : f.result.length = f.piece.length + f.line.length := by
      rw [Front.result, hf, List.drop_zero, List.length_append]
    have hrec := @ih hcut' (delta + f.piece.length - f.cut) (base + f.line.length + 1)
      (base' + f.undo.line.length + 1) (by rw [Front.undo, hresult]; omega)
    have hge := @add_le_mapped _ _ hcut' p (delta + f.piece.length - f.cut)
      (base + f.line.length + 1)
    simp only [Front.undo] at hrec
    rw [placed, List.map_cons, placed]
    -- Before the front of the first line, at it, or behind.
    rcases lt_trichotomy p base with hlt | rfl | hgt
    · have hto :
          mapped p delta (⟨base, f.cut, f.piece⟩ :: placed (base + f.line.length + 1) fs) =
          p + delta := by rw [mapped, if_pos hlt]
      rw [hto, mapped, if_pos (by dsimp only; omega), Int.add_neg_cancel_right]
    · -- At the front: the position goes behind the piece, and back to where it is taken away.
      have hto :
          mapped base delta (⟨base, f.cut, f.piece⟩ :: placed (base + f.line.length + 1) fs) =
          base + delta + f.piece.length := by
        rw [mapped, if_neg (by dsimp only; omega), if_pos (by dsimp only; omega)]
      rw [hto, mapped, if_neg (by dsimp only; omega), if_pos (by simp only [Front.undo]; omega)]
      simp only [Front.undo, List.length_nil]
      omega
    · have hto :
          mapped p delta (⟨base, f.cut, f.piece⟩ :: placed (base + f.line.length + 1) fs) =
          mapped p (delta + f.piece.length - f.cut) (placed (base + f.line.length + 1) fs) := by
        rw [mapped, if_neg (by dsimp only; omega), if_neg (by dsimp only; omega)]
      rw [hto, mapped, if_neg (by dsimp only; omega), if_neg (by simp only [Front.undo]; omega)]
      simp only [Front.undo, List.length_nil, hresult] at hrec ⊢
      conv_rhs => rw [← hrec]
      congr 1
      omega

end

end Fronts

end Flark
