import Mathlib.Tactic.Tauto

/-!
# Partial tests

A test that may fail to answer: an `Option Bool`. `Answers r P` says that `r` answers, with
whether `P` holds, and the rules below follow the forms that such tests are written in.
-/

namespace Flark

/-- The test `r` answers whether `P`. -/
def Answers (r : Option Bool) (P : Prop) : Prop := ∃ v, r = some v ∧ (v = true ↔ P)

namespace Answers

variable {r a b : Option Bool} {P Q A B : Prop}

theorem of_iff {v : Bool} (h : v = true ↔ P) : Answers (some v) P := ⟨v, rfl, h⟩

theorem congr (h : Answers r P) (hPQ : P ↔ Q) : Answers r Q := by
  obtain ⟨v, hv, hP⟩ := h
  exact ⟨v, hv, hP.trans hPQ⟩

/-- Two tests that answer the same question give the same answer. -/
theorem eq (ha : Answers a P) (hb : Answers b P) : a = b := by
  obtain ⟨v, rfl, hv⟩ := ha
  obtain ⟨w, rfl, hw⟩ := hb
  exact congrArg some (Bool.eq_iff_iff.2 (hv.trans hw.symm))

theorem not (h : Answers r P) : Answers (r.bind fun v => some !v) ¬P := by
  obtain ⟨v, rfl, hv⟩ := h
  refine ⟨!v, rfl, ?_⟩
  rw [← hv, Bool.not_eq_true', Bool.not_eq_true]

/-- A test that decides which of two tests is taken. -/
theorem ite (h : Answers r P) (ha : P → Answers a A) (hb : ¬P → Answers b B) :
    Answers (r.bind fun v => if v then a else b) (P ∧ A ∨ ¬P ∧ B) := by
  obtain ⟨v, rfl, hv⟩ := h
  cases v with
  | false =>
    have hP : ¬P := mt hv.2 Bool.false_ne_true
    exact (hb hP).congr (by simp [hP])
  | true =>
    have hP : P := hv.1 rfl
    exact (ha hP).congr (by simp [hP])

/-- A test made only after the first one passes. -/
theorem and (h : Answers r P) (ha : P → Answers a A) :
    Answers (r.bind fun v => if v then a else some false) (P ∧ A) :=
  (h.ite ha fun _ => of_iff (P := False) (by simp)).congr (by simp)

/-- A test made only after the first one fails. -/
theorem or (h : Answers r P) (hb : ¬P → Answers b B) :
    Answers (r.bind fun v => if v then some true else b) (P ∨ B) :=
  (h.ite (fun _ => of_iff (P := True) (by simp)) hb).congr (by tauto)

/-- A search answers whether something passes, if every test answers. -/
theorem anyM {α : Type*} {f : α → Option Bool} {P : α → Prop} {l : List α}
    (h : ∀ x ∈ l, Answers (f x) (P x)) : Answers (l.anyM f) (∃ x ∈ l, P x) := by
  induction l with
  | nil => exact of_iff (by simp)
  | cons x l ih =>
    obtain ⟨v, hv, hx⟩ := h x List.mem_cons_self
    obtain ⟨w, hw, hl⟩ := ih fun y hy => h y (List.mem_cons_of_mem _ hy)
    refine ⟨v || w, ?_, ?_⟩
    · rw [List.anyM, hv]
      cases v with
      | false => exact hw
      | true => rfl
    · simp only [Bool.or_eq_true, hx, hl, List.mem_cons, exists_eq_or_imp]

end Answers

end Flark
