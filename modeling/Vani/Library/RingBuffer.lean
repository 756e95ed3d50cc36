import Mathlib.Data.List.Infix
import Mathlib.Data.Nat.ModEq

/-!
# Ring buffers

Positions along a ring of `n` cells are numbers, and a position stands for the cell of its
remainder. A window of at most `n` positions visits each cell at most once, so a list laid
out along a window can be extended at either end of it without touching the rest.
-/

set_option autoImplicit false

namespace Vani.Library

/-! ## Windows -/

/-- Positions less than a ring apart are different cells. -/
theorem mod_ne_of_window {n s i j : Nat} (hi : s ≤ i ∧ i < s + n) (hj : s ≤ j ∧ j < s + n)
    (hne : i ≠ j) : i % n ≠ j % n := by
  intro heq
  rcases Nat.lt_or_gt_of_ne hne with hlt | hlt
  · have hdvd : n ∣ j - i := (Nat.modEq_iff_dvd' hlt.le).mp heq
    have hle := Nat.le_of_dvd (by omega) hdvd
    omega
  · have hdvd : n ∣ i - j := (Nat.modEq_iff_dvd' hlt.le).mp heq.symm
    have hle := Nat.le_of_dvd (by omega) hdvd
    omega

/-- Every cell is that of some position of a window. -/
theorem exists_position {n i : Nat} (s : Nat) (hi : i < n) :
    ∃ j, s ≤ j ∧ j < s + n ∧ j % n = i := by
  have hmod := Nat.mod_lt s (Nat.zero_lt_of_lt hi)
  refine ⟨s + (i + n - s % n) % n, Nat.le_add_right _ _, ?_, ?_⟩
  · have hlt := Nat.mod_lt (i + n - s % n) (Nat.zero_lt_of_lt hi)
    omega
  · have hsum : s % n + (i + n - s % n) = i + n := by omega
    rw [Nat.add_mod_mod, ← Nat.mod_add_mod, hsum, Nat.add_mod_right, Nat.mod_eq_of_lt hi]

/-! ## Lists along a window -/

/-- The cells from position `s` on, around the end, hold the list. -/
structure Circular {α : Type} (cells : Array (Option α)) (s : Nat) (l : List α) : Prop where
  fits : l.length ≤ cells.size
  elem : ∀ i x, l[i]? = some x → cells[(s + i) % cells.size]? = some (some x)

namespace Circular

variable {α : Type} {cells : Array (Option α)} {s : Nat} {l : List α} {x : α}

theorem nil (cells : Array (Option α)) (s : Nat) : Circular cells s [] where
  fits := Nat.zero_le _
  elem i x h := by cases h

/-- Only the cell a window starts at matters. -/
theorem congr {s' : Nat} (h : Circular cells s l) (hs : s % cells.size = s' % cells.size) :
    Circular cells s' l where
  fits := h.fits
  elem i y hy := by
    rw [← Nat.mod_add_mod, ← hs, Nat.mod_add_mod]
    exact h.elem i y hy

/-- The last element goes. -/
theorem init (h : Circular cells s (l ++ [x])) : Circular cells s l where
  fits := by
    have hfits := h.fits
    rw [List.length_append] at hfits
    omega
  elem i y hy := by
    have hi := (List.getElem?_eq_some_iff.mp hy).1
    exact h.elem i y (by rw [List.getElem?_append_left hi, hy])

/-- The first element goes. -/
theorem tail (h : Circular cells s (x :: l)) : Circular cells (s + 1) l where
  fits := by
    have hfits := h.fits
    rw [List.length_cons] at hfits
    omega
  elem i y hy := by
    have hcell := h.elem (i + 1) y hy
    rwa [← Nat.add_assoc, Nat.add_right_comm] at hcell

/-- A new last element. -/
theorem concat (h : Circular cells s l) (hroom : l.length < cells.size) :
    Circular (cells.setIfInBounds ((s + l.length) % cells.size) (some x)) s (l ++ [x]) where
  fits := by
    rw [Array.size_setIfInBounds, List.length_append]
    exact hroom
  elem i y hy := by
    rw [Array.size_setIfInBounds]
    by_cases hi : i < l.length
    · rw [List.getElem?_append_left hi] at hy
      have hne : (s + l.length) % cells.size ≠ (s + i) % cells.size :=
        mod_ne_of_window (s := s) (by omega) (by omega) (by omega)
      rw [Array.getElem?_setIfInBounds_ne hne]
      exact h.elem i y hy
    · have hlast : i = l.length := by
        have hlt := (List.getElem?_eq_some_iff.mp hy).1
        rw [List.length_append, List.length_singleton] at hlt
        omega
      subst hlast
      rw [List.getElem?_concat_length] at hy
      cases hy
      exact Array.getElem?_setIfInBounds_self_of_lt (Nat.mod_lt _ (Nat.zero_lt_of_lt hroom))

/-- A new first element, one position further back. -/
theorem cons (h : Circular cells (s + 1) l) (hroom : l.length < cells.size) :
    Circular (cells.setIfInBounds (s % cells.size) (some x)) s (x :: l) where
  fits := by
    rw [Array.size_setIfInBounds, List.length_cons]
    exact hroom
  elem i y hy := by
    rw [Array.size_setIfInBounds]
    cases i with
    | zero =>
      cases hy
      exact Array.getElem?_setIfInBounds_self_of_lt (Nat.mod_lt _ (Nat.zero_lt_of_lt hroom))
    | succ i =>
      rw [List.getElem?_cons_succ] at hy
      have hi := (List.getElem?_eq_some_iff.mp hy).1
      have hne : s % cells.size ≠ (s + (i + 1)) % cells.size :=
        mod_ne_of_window (s := s) (by omega) (by omega) (by omega)
      rw [Array.getElem?_setIfInBounds_ne hne, Nat.add_comm i 1, ← Nat.add_assoc]
      exact h.elem i y hy

/-- A list laid out from the first cell on. -/
theorem of_prefix (hfits : l.length ≤ cells.size)
    (helem : ∀ (i : Nat) y, l[i]? = some y → cells[i]? = some (some y)) : Circular cells 0 l where
  fits := hfits
  elem i y hy := by
    have hi := (List.getElem?_eq_some_iff.mp hy).1
    rw [Nat.zero_add, Nat.mod_eq_of_lt (by omega)]
    exact helem i y hy

end Circular

end Vani.Library
