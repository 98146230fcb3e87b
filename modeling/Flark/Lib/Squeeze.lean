import Mathlib.Data.List.DropRight
import Mathlib.Tactic.Common

/-!
# Blanks beside a break

The replacement of every `blank* brk blank*` of a list by the break alone, from the left, as the
regular expressions of a host do it. Line by line it strips the blanks at the ends that a break
made (`squeeze_of_notMem`, `squeeze_append_cons`), so what stands before a break and what stands
behind it are stripped independently (`squeeze_append_break`), and a text that two lists share up
to a break, or from one on, can be left out when they are compared.
-/

namespace Flark

namespace Squeeze

variable {α : Type*} [DecidableEq α] (blank : α → Bool) (brk : α)

/-- What follows a match at the front. -/
def behind (t : List α) : Option (List α) :=
  match t.dropWhile blank with
  | [] => none
  | u :: rest => if u = brk then some (rest.dropWhile blank) else none

/-- The replacement from the left; a turn takes at least one element. -/
def squeezeFrom : (fuel : Nat) → List α → List α
  | 0, t => t
  | _, [] => []
  | fuel + 1, u :: t =>
    match behind blank brk (u :: t) with
    | some rest => brk :: squeezeFrom fuel rest
    | none => u :: squeezeFrom fuel t

def squeeze (t : List α) : List α := squeezeFrom blank brk t.length t

variable {blank : α → Bool} {brk : α}

theorem squeezeFrom_cons (fuel : Nat) (u : α) (t : List α) :
    squeezeFrom blank brk (fuel + 1) (u :: t) =
      match behind blank brk (u :: t) with
      | some rest => brk :: squeezeFrom blank brk fuel rest
      | none => u :: squeezeFrom blank brk fuel t := rfl

/-! ## Lists one element at a time -/

theorem length_behind {u : α} {t rest : List α} (h : behind blank brk (u :: t) = some rest) :
    rest.length ≤ t.length := by
  rw [behind] at h
  split at h
  · cases h
  · next v tail htail =>
    split at h
    · obtain rfl := Option.some_inj.1 h
      have hle := (List.dropWhile_suffix blank : _ <:+ u :: t).length_le
      rw [htail, List.length_cons, List.length_cons] at hle
      exact (List.dropWhile_suffix blank).length_le.trans (by omega)
    · cases h

theorem squeezeFrom_eq (fuel : Nat) {t : List α} (ht : t.length ≤ fuel) :
    squeezeFrom blank brk fuel t = squeeze blank brk t := by
  rw [squeeze]
  induction hn : t.length using Nat.strongRecOn generalizing t fuel with
  | _ n ih =>
    subst hn
    cases t with
    | nil => cases fuel <;> rfl
    | cons u t =>
      obtain _ | fuel := fuel
      · exact absurd ht (Nat.not_succ_le_zero _)
      · rw [List.length_cons, Nat.add_le_add_iff_right] at ht
        rw [List.length_cons, squeezeFrom_cons, squeezeFrom_cons]
        cases hb : behind blank brk (u :: t) with
        | none => exact congrArg (u :: ·) (ih _ (Nat.lt_succ_self _) fuel ht rfl)
        | some rest =>
          have hle := length_behind hb
          have hlt : rest.length < (u :: t).length := Nat.lt_succ_of_le hle
          refine congrArg (brk :: ·) ?_
          rw [ih _ hlt fuel (hle.trans ht) rfl, ← ih _ hlt t.length hle rfl]

theorem squeeze_nil : squeeze blank brk [] = [] := rfl

theorem squeeze_of_some {t rest : List α} (h : behind blank brk t = some rest) :
    squeeze blank brk t = brk :: squeeze blank brk rest := by
  cases t with
  | nil => cases h
  | cons u t =>
    rw [squeeze, List.length_cons, squeezeFrom_cons, h]
    exact congrArg (brk :: ·) (squeezeFrom_eq _ (length_behind h))

theorem squeeze_of_none {u : α} {t : List α} (h : behind blank brk (u :: t) = none) :
    squeeze blank brk (u :: t) = u :: squeeze blank brk t := by
  rw [squeeze, List.length_cons, squeezeFrom_cons, h]
  rfl

/-! ## Lists one line at a time -/

theorem mem_of_behind {t rest : List α} (h : behind blank brk t = some rest) : brk ∈ t := by
  rw [behind] at h
  split at h
  · cases h
  · next v tail htail =>
    split at h
    · next hv =>
      rw [← hv]
      exact (List.dropWhile_suffix blank).mem (htail ▸ List.mem_cons_self)
    · cases h

/-- Without a break there is nothing to replace. -/
theorem squeeze_of_notMem {t : List α} (h : brk ∉ t) : squeeze blank brk t = t := by
  induction t with
  | nil => rfl
  | cons u t ih =>
    have hnone : behind blank brk (u :: t) = none :=
      Option.eq_none_iff_forall_ne_some.2 fun _ hsome => h (mem_of_behind hsome)
    rw [squeeze_of_none hnone, ih fun hmem => h (List.mem_cons_of_mem _ hmem)]

omit [DecidableEq α] in
theorem rdropWhile_cons (u : α) (t : List α) : (u :: t).rdropWhile blank =
    if (u :: t).all blank then [] else u :: t.rdropWhile blank := by
  induction t using List.reverseRecOn with
  | nil => by_cases h : blank u <;> simp [List.rdropWhile_singleton, h]
  | append_singleton t v ih =>
    rw [← List.cons_append]
    by_cases hv : blank v
    · rw [List.rdropWhile_concat_pos _ _ _ hv, List.rdropWhile_concat_pos _ _ _ hv, ih]
      simp [hv]
    · rw [List.rdropWhile_concat_neg _ _ _ hv, List.rdropWhile_concat_neg _ _ _ hv]
      simp [hv]

section

variable (hbrk : blank brk = false)

include hbrk

omit [DecidableEq α] in
theorem dropWhile_append_cons (x y : List α) :
    (x ++ brk :: y).dropWhile blank = x.dropWhile blank ++ brk :: y := by
  induction x with
  | nil => rw [List.nil_append, List.dropWhile_cons_of_neg (by simp [hbrk])]; rfl
  | cons u x ih =>
    rw [List.cons_append, List.dropWhile_cons, List.dropWhile_cons]
    split
    · exact ih
    · rfl

/-- The first line loses its blanks at the break, and what follows those at its front. -/
theorem squeeze_append_cons {x : List α} (hx : brk ∉ x) (y : List α) :
    squeeze blank brk (x ++ brk :: y) =
      x.rdropWhile blank ++ brk :: squeeze blank brk (y.dropWhile blank) := by
  induction x with
  | nil =>
    refine squeeze_of_some ?_
    rw [behind, List.nil_append, List.dropWhile_cons_of_neg (by simp [hbrk])]
    exact if_pos rfl
  | cons u x ih =>
    have ih := ih fun hmem => hx (List.mem_cons_of_mem _ hmem)
    rw [rdropWhile_cons]
    by_cases hall : (u :: x).all blank
    · rw [if_pos hall]
      refine squeeze_of_some ?_
      rw [behind, dropWhile_append_cons hbrk, List.dropWhile_eq_nil_iff.2 (List.all_eq_true.1 hall)]
      exact if_pos rfl
    · rw [if_neg hall, List.cons_append, List.cons_append, ← ih]
      refine squeeze_of_none ?_
      rw [← List.cons_append, behind, dropWhile_append_cons hbrk]
      -- The match would have to start with a blank and get to a unit of the line.
      cases hdrop : (u :: x).dropWhile blank with
      | nil => exact absurd (List.all_eq_true.2 (List.dropWhile_eq_nil_iff.1 hdrop)) hall
      | cons v tail =>
        have hv : v ∈ u :: x := (List.dropWhile_suffix blank).mem (hdrop ▸ List.mem_cons_self)
        exact if_neg fun heq : v = brk => hx (heq ▸ hv)

/-! ## Parts -/

/-- What stands before a break and what stands behind it are stripped independently. -/
theorem squeeze_append_break (x y : List α) : squeeze blank brk (x ++ brk :: y) =
    squeeze blank brk (x ++ [brk]) ++ squeeze blank brk (y.dropWhile blank) := by
  induction hn : x.length using Nat.strongRecOn generalizing x with
  | _ n ih =>
    subst hn
    by_cases hx : brk ∈ x
    · obtain ⟨line, rest, rfl, hline⟩ := List.eq_append_cons_of_mem hx
      rw [List.append_assoc, List.append_assoc, List.cons_append, List.cons_append,
        squeeze_append_cons hbrk hline, squeeze_append_cons hbrk hline,
        dropWhile_append_cons hbrk, dropWhile_append_cons hbrk, ih _ ?_ (rest.dropWhile blank) rfl,
        List.append_assoc, List.cons_append]
      have := (List.dropWhile_suffix blank : rest.dropWhile blank <:+ rest).length_le
      rw [List.length_append, List.length_cons]
      omega
    · rw [squeeze_append_cons hbrk hx, squeeze_append_cons hbrk hx]
      simp only [List.dropWhile_nil, squeeze_nil, List.append_assoc, List.singleton_append]

/-- Texts that are the same up to a break are compared from that break on. -/
theorem squeeze_cancel_left (before x y : List α) :
    squeeze blank brk (before ++ brk :: x) = squeeze blank brk (before ++ brk :: y) ↔
      squeeze blank brk (brk :: x) = squeeze blank brk (brk :: y) := by
  have hcons := squeeze_append_break hbrk []
  simp only [List.nil_append] at hcons
  rw [squeeze_append_break hbrk before x, squeeze_append_break hbrk before y, hcons x, hcons y,
    List.append_cancel_left_eq, List.append_cancel_left_eq]

/-- Texts that are the same from a break on are compared up to that break. -/
theorem squeeze_cancel_right (after x y : List α) :
    squeeze blank brk (x ++ brk :: after) = squeeze blank brk (y ++ brk :: after) ↔
      squeeze blank brk (x ++ [brk]) = squeeze blank brk (y ++ [brk]) := by
  rw [squeeze_append_break hbrk x after, squeeze_append_break hbrk y after,
    List.append_cancel_right_eq]

theorem count_dropWhile (t : List α) : (t.dropWhile blank).count brk = t.count brk := by
  induction t with
  | nil => rfl
  | cons u t ih =>
    rw [List.dropWhile_cons]
    split
    · next hu =>
      have hne : u ≠ brk := fun heq => Bool.false_ne_true (hbrk.symm.trans (heq ▸ hu))
      rw [ih, List.count_cons_of_ne hne]
    · rfl

theorem count_squeeze (t : List α) : (squeeze blank brk t).count brk = t.count brk := by
  induction hn : t.length using Nat.strongRecOn generalizing t with
  | _ n ih =>
    subst hn
    by_cases ht : brk ∈ t
    · obtain ⟨line, rest, rfl, hline⟩ := List.eq_append_cons_of_mem ht
      have hprefix := (List.rdropWhile_prefix blank line).sublist.count_le brk
      rw [List.count_eq_zero_of_not_mem hline, Nat.le_zero] at hprefix
      have hle := (List.dropWhile_suffix blank : rest.dropWhile blank <:+ rest).length_le
      rw [squeeze_append_cons hbrk hline, List.count_append, List.count_append, hprefix,
        List.count_eq_zero_of_not_mem hline, List.count_cons_self, List.count_cons_self,
        ih _ ?_ _ rfl, count_dropWhile hbrk]
      rw [List.length_append, List.length_cons]
      omega
    · rw [squeeze_of_notMem ht]

end

end Squeeze

end Flark
