import Mathlib.Data.Nat.Notation

/-!
# Xor-shifts

The exclusive or of a word and a shift of itself is zero only for the word zero: a word that is
its own shift is shifted out completely.
-/

set_option autoImplicit false

namespace Vani.Library

variable {w : ℕ} {x : BitVec w} {k : ℕ}

/-- A word that is its own shift to the left is zero. -/
theorem eq_zero_of_shiftLeft (hk : 0 < k) (h : x = x <<< k) : x = 0#w := by
  have hrepeat : ∀ n : ℕ, x = x <<< (n * k) := by
    intro n
    induction n with
    | zero => rw [Nat.zero_mul, BitVec.shiftLeft_zero]
    | succ n ih => rw [Nat.succ_mul, BitVec.shiftLeft_add, ← ih, ← h]
  rw [hrepeat w]
  exact BitVec.shiftLeft_eq_zero (Nat.le_mul_of_pos_right w hk)

theorem eq_zero_of_ushiftRight (hk : 0 < k) (h : x = x >>> k) : x = 0#w := by
  have hrepeat : ∀ n : ℕ, x = x >>> (n * k) := by
    intro n
    induction n with
    | zero => rw [Nat.zero_mul, BitVec.ushiftRight_zero]
    | succ n ih => rw [Nat.succ_mul, BitVec.shiftRight_add, ← ih, ← h]
  rw [hrepeat w]
  exact BitVec.ushiftRight_eq_zero (Nat.le_mul_of_pos_right w hk)

/-- A xor-shift keeps words other than zero. -/
theorem xor_shiftLeft_ne_zero (hk : 0 < k) (hx : x ≠ 0#w) : x ^^^ x <<< k ≠ 0#w := by
  intro h
  exact hx (eq_zero_of_shiftLeft hk (BitVec.xor_eq_zero_iff.mp h))

theorem xor_ushiftRight_ne_zero (hk : 0 < k) (hx : x ≠ 0#w) : x ^^^ x >>> k ≠ 0#w := by
  intro h
  exact hx (eq_zero_of_ushiftRight hk (BitVec.xor_eq_zero_iff.mp h))

end Vani.Library
