import Flark.Lib.Scan
import Mathlib.Data.List.Basic

/-!
# What two lists have in common at their ends

A difference of two lists is what is left between a number of elements they have in common at the
front and a number they have in common at the back (`Agree`). Repeated elements admit several.
One can be asked for (`agree_of_affixes`), or be scanned for from either end of one there is
already (`Agree.scanBefore`, `Agree.scanBehind`); what is scanned for is as small as it can be
(`tight_scan`).
-/

namespace Flark

variable {α : Type*}

/-- The lists have their first `a` elements in common, and behind those their last `s`. -/
structure Agree (x y : List α) (a s : Nat) : Prop where
  fits : a + s ≤ x.length
  fits' : a + s ≤ y.length
  before : x.take a = y.take a
  behind : x.drop (x.length - s) = y.drop (y.length - s)

variable {x y : List α} {a s : Nat}

theorem agree_nil (x y : List α) : Agree x y 0 0 where
  fits := Nat.zero_le _
  fits' := Nat.zero_le _
  before := by rw [List.take_zero, List.take_zero]
  behind := by rw [Nat.sub_zero, Nat.sub_zero, List.drop_length, List.drop_length]

/-- The difference that replaces a range of the first list. -/
theorem agree_of_affixes {b : Nat} (hab : a ≤ b) (hb : b ≤ x.length) (hbefore : x.take a <+: y)
    (hbehind : x.drop b <:+ y) (hlength : a + (x.length - b) ≤ y.length) :
    Agree x y a (x.length - b) where
  fits := by omega
  fits' := hlength
  before := by
    have h := List.prefix_iff_eq_take.1 hbefore
    rwa [List.length_take, Nat.min_eq_left (hab.trans hb)] at h
  behind := by
    have h := List.suffix_iff_eq_drop.1 hbehind
    rwa [List.length_drop, ← Nat.sub_sub_self hb, Nat.sub_sub_self (Nat.sub_le _ _)] at h

namespace Agree

theorem take_append_drop (h : Agree x y a s) :
    x.take a ++ (y.take (y.length - s)).drop a ++ x.drop (x.length - s) = y := by
  have hle := h.fits'
  rw [h.before, h.behind]
  conv_rhs => rw [← List.take_append_drop (y.length - s) y, ← List.take_append_drop a (y.take _)]
  rw [List.take_take, Nat.min_eq_left (by omega)]

/-- Less is in common as well. -/
theorem mono {a' s' : Nat} (h : Agree x y a s) (ha : a' ≤ a) (hs : s' ≤ s) : Agree x y a' s' where
  fits := (Nat.add_le_add ha hs).trans h.fits
  fits' := (Nat.add_le_add ha hs).trans h.fits'
  before := by
    have := congrArg (List.take a') h.before
    rwa [List.take_take, List.take_take, Nat.min_eq_left ha] at this
  behind := by
    have hle := h.fits
    have hle' := h.fits'
    have := congrArg (List.drop (s - s')) h.behind
    rw [List.drop_drop, List.drop_drop] at this
    rwa [show x.length - s + (s - s') = x.length - s' by omega,
      show y.length - s + (s - s') = y.length - s' by omega] at this

end Agree

/-! ## Scans -/

variable [DecidableEq α]

/-- More in common at the front, up to what is in common at the back. -/
def scanBefore (x y : List α) (a s : Nat) : Nat :=
  Scan.upTo (fun i => x[i]? == y[i]?) (min (x.length - s) (y.length - s) - a) a

/-- More in common at the back, up to what is in common at the front. -/
def scanBehind (x y : List α) (a s : Nat) : Nat :=
  Scan.upTo (fun i => x[x.length - 1 - i]? == y[y.length - 1 - i]?)
    (min (x.length - a) (y.length - a) - s) s

namespace Agree

theorem scanBefore (h : Agree x y a s) : Agree x y (scanBefore x y a s) s where
  fits := by
    have := h.fits
    have := Scan.upTo_le (fun i => x[i]? == y[i]?) (min (x.length - s) (y.length - s) - a) a
    rw [Flark.scanBefore]
    omega
  fits' := by
    have := h.fits'
    have := Scan.upTo_le (fun i => x[i]? == y[i]?) (min (x.length - s) (y.length - s) - a) a
    rw [Flark.scanBefore]
    omega
  before := by
    refine List.ext_getElem? fun i => ?_
    rw [List.getElem?_take, List.getElem?_take]
    split
    · next hi =>
      rcases Nat.lt_or_ge i a with hlt | hge
      · have := congrArg (·[i]?) h.before
        simpa only [List.getElem?_take, if_pos hlt] using this
      · exact beq_iff_eq.1 (Scan.holds hge hi)
    · rfl
  behind := h.behind

theorem scanBehind (h : Agree x y a s) : Agree x y a (scanBehind x y a s) where
  fits := by
    have := h.fits
    have := Scan.upTo_le (fun i => x[x.length - 1 - i]? == y[y.length - 1 - i]?)
      (min (x.length - a) (y.length - a) - s) s
    rw [Flark.scanBehind]
    omega
  fits' := by
    have := h.fits'
    have := Scan.upTo_le (fun i => x[x.length - 1 - i]? == y[y.length - 1 - i]?)
      (min (x.length - a) (y.length - a) - s) s
    rw [Flark.scanBehind]
    omega
  before := h.before
  behind := by
    have hfits := h.fits
    have hfits' := h.fits'
    have hle := Scan.upTo_le (fun i => x[x.length - 1 - i]? == y[y.length - 1 - i]?)
      (min (x.length - a) (y.length - a) - s) s
    rw [← Flark.scanBehind] at hle
    refine List.ext_getElem? fun i => ?_
    rw [List.getElem?_drop, List.getElem?_drop]
    by_cases hi : i < Flark.scanBehind x y a s
    · -- From the back, the element is the `k`-th.
      have hk : ∃ k, k < Flark.scanBehind x y a s ∧ i = Flark.scanBehind x y a s - 1 - k :=
        ⟨Flark.scanBehind x y a s - 1 - i, by omega, by omega⟩
      obtain ⟨k, hk, rfl⟩ := hk
      rw [show x.length - Flark.scanBehind x y a s + (Flark.scanBehind x y a s - 1 - k) =
          x.length - 1 - k by omega,
        show y.length - Flark.scanBehind x y a s + (Flark.scanBehind x y a s - 1 - k) =
          y.length - 1 - k by omega]
      -- The first `s` of them agree already, and the others have been compared.
      rcases Nat.lt_or_ge k s with hlt | hge
      · have := congrArg (·[s - 1 - k]?) h.behind
        simp only [List.getElem?_drop] at this
        rwa [show x.length - s + (s - 1 - k) = x.length - 1 - k by omega,
          show y.length - s + (s - 1 - k) = y.length - 1 - k by omega] at this
      · exact beq_iff_eq.1 (Scan.holds hge hk)
    · rw [List.getElem?_eq_none (by omega), List.getElem?_eq_none (by omega)]

end Agree

/-! ## Tight differences -/

/-- A difference is as small as it can be where it is: nothing is left of one of the lists, or what
    is left of the two neither begins nor ends alike. -/
structure Tight (x y : List α) (a s : Nat) : Prop where
  first : a + s < x.length → a + s < y.length → x[a]? ≠ y[a]?
  last : a + s < x.length → a + s < y.length → x[x.length - 1 - s]? ≠ y[y.length - 1 - s]?

omit [DecidableEq α] in
/-- Where the one list is all in common, nothing can be left out. -/
theorem tight_of_full (h : y.length = a + s) : Tight x y a s where
  first _ hy := absurd hy (by omega)
  last _ hy := absurd hy (by omega)

/-- Scans from both ends come to a tight difference. -/
theorem tight_scan (x y : List α) (a s : Nat) :
    Tight x y (scanBefore x y a s) (scanBehind x y (scanBefore x y a s) s) := by
  have hle : s ≤ scanBehind x y (scanBefore x y a s) s := Scan.le_upTo _ _ _
  refine ⟨fun hx hy => ?_, fun hx hy => ?_⟩
  · -- The first scan has not come to what is in common at the back.
    have hlt : scanBefore x y a s < a + (min (x.length - s) (y.length - s) - a) := by omega
    exact ne_of_beq_false (Scan.fails hlt)
  · have hlt : scanBehind x y (scanBefore x y a s) s <
        s + (min (x.length - scanBefore x y a s) (y.length - scanBefore x y a s) - s) := by omega
    exact ne_of_beq_false (Scan.fails hlt)

/-- A list has all of itself in common. -/
theorem scanBefore_self (h : a + s ≤ x.length) : scanBefore x x a s = x.length - s := by
  rw [scanBefore, Nat.min_self]
  by_contra hne
  have hle := Scan.upTo_le (fun i => x[i]? == x[i]?) (x.length - s - a) a
  have hfails := Scan.fails (show Scan.upTo (fun i => x[i]? == x[i]?) (x.length - s - a) a <
    a + (x.length - s - a) by omega)
  exact Bool.false_ne_true (hfails.symm.trans (beq_self_eq_true _))

theorem scanBehind_of_full (h : x.length = a + s) : scanBehind x y a s = s := by
  rw [scanBehind, show min (x.length - a) (y.length - a) - s = 0 by omega]
  rfl

end Flark
