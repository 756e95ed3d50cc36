import Mathlib.Algebra.Order.Floor.Ring
import Mathlib.Data.Rat.Floor
import Mathlib.Tactic.FieldSimp
import Mathlib.Tactic.Linarith
import Mathlib.Data.Nat.Sqrt
import Mathlib.Tactic.Ring

/-!
# Roundings of a quotient

The floor, the ceiling and the nearest integer of a rational `a / b`, each from a quotient and
the remainder that belongs to it, and the mean of two integers from their binary digits.
-/

set_option autoImplicit false

namespace Vani.Library

variable {a b q r : ℤ}

/-- The quotient by a divisor of either sign, and the rest. -/
theorem ratio_eq (hb : b ≠ 0) (h : a = b * q + r) : (a : ℚ) / b = q + (r : ℚ) / b := by
  have hb' : (b : ℚ) ≠ 0 := by exact_mod_cast hb
  rw [h]
  push_cast
  field_simp

/-- A rest of the sign of the divisor belongs to the floor. -/
theorem floor_ratio (h : a = b * q + r) (hr : 0 ≤ r ∧ r < b ∨ b < r ∧ r ≤ 0) :
    ⌊(a : ℚ) / b⌋ = q := by
  have hb : b ≠ 0 := by omega
  rw [ratio_eq hb h, Int.floor_eq_iff]
  have hrest : 0 ≤ (r : ℚ) / b ∧ (r : ℚ) / b < 1 := by
    rcases hr with ⟨h0, hlt⟩ | ⟨hlt, h0⟩
    · have hb : (0 : ℚ) < b := by exact_mod_cast h0.trans_lt hlt
      exact ⟨div_nonneg (by exact_mod_cast h0) hb.le, (div_lt_one hb).mpr (by exact_mod_cast hlt)⟩
    · have hb : (b : ℚ) < 0 := by exact_mod_cast hlt.trans_le h0
      refine ⟨div_nonneg_of_nonpos (by exact_mod_cast h0) hb.le, ?_⟩
      rw [div_lt_one_of_neg hb]
      exact_mod_cast hlt
  constructor
  · linarith [hrest.1]
  · linarith [hrest.2]

/-- A rest of the other sign belongs to the ceiling. -/
theorem ceil_ratio (h : a = b * q + r) (hr : -b < r ∧ r ≤ 0 ∨ 0 ≤ r ∧ r < -b) :
    ⌈(a : ℚ) / b⌉ = q := by
  have hneg : ⌊((-a : ℤ) : ℚ) / b⌋ = -q := by
    apply floor_ratio (r := -r)
    · rw [h]
      ring
    · omega
  push_cast at hneg
  rw [neg_div, Int.floor_neg] at hneg
  omega

/-- The integer is nearest to the rational, and away from zero if another is as near. -/
structure RoundsTo (x : ℚ) (q : ℤ) : Prop where
  nearest : |x - q| ≤ 1 / 2
  away : |x - q| = 1 / 2 → |x| < |(q : ℚ)|

/-- The nearest integer from the one for absolute values. -/
theorem roundsTo_of_natural {a b q : ℕ} (hb : 0 < b) (hlow : 2 * (q * b) ≤ 2 * a + b)
    (hhigh : 2 * a < 2 * (q * b) + b) : RoundsTo ((a : ℚ) / b) q := by
  have hb' : (0 : ℚ) < b := by exact_mod_cast hb
  have hlow' : 2 * ((q : ℚ) * b) ≤ 2 * a + b := by exact_mod_cast hlow
  have hhigh' : 2 * (a : ℚ) < 2 * (q * b) + b := by exact_mod_cast hhigh
  have hlow'' : (q : ℚ) - 1 / 2 ≤ a / b := by
    rw [le_div_iff₀ hb']
    linarith
  have hhigh'' : (a : ℚ) / b < q + 1 / 2 := by
    rw [div_lt_iff₀ hb']
    linarith
  have hcast : ((q : ℤ) : ℚ) = (q : ℚ) := Int.cast_natCast q
  constructor
  · rw [hcast, abs_le]
    constructor <;> linarith
  · intro htie
    rw [hcast] at htie ⊢
    have hnonneg : (0 : ℚ) ≤ a / b := by positivity
    rw [abs_of_nonneg hnonneg, abs_of_nonneg (Nat.cast_nonneg q)]
    rcases abs_eq (by norm_num) |>.mp htie with h | h
    · linarith
    · linarith

/-- Rounding to the nearest commutes with the sign. -/
theorem RoundsTo.neg {x : ℚ} (h : RoundsTo x q) : RoundsTo (-x) (-q) := by
  have hdist : |-x - ((-q : ℤ) : ℚ)| = |x - q| := by
    push_cast
    rw [← abs_neg]
    ring_nf
  constructor
  · rw [hdist]
    exact h.nearest
  · intro htie
    rw [hdist] at htie
    push_cast
    rw [abs_neg, abs_neg]
    exact h.away htie

/-! ## Means -/

/-- The digits two numbers share count twice in their sum, the others once. -/
theorem add_eq_and_xor (x y : ℕ) : x + y = 2 * (x &&& y) + (x ^^^ y) := by
  induction x using Nat.strongRecOn generalizing y with
  | _ x ih =>
    rcases Nat.eq_zero_or_pos x with rfl | hpos
    · simp
    · have hhalf := ih (x / 2) (by omega) (y / 2)
      rw [← Nat.and_div_two, ← Nat.xor_div_two] at hhalf
      have hand := Nat.and_mod_two_eq_one (a := x) (b := y)
      have hxor := Nat.xor_mod_two_eq_one (a := x) (b := y)
      omega

/-- The same for numbers in two's complement. -/
theorem toInt_add_toInt {w : ℕ} (x y : BitVec w) :
    x.toInt + y.toInt = 2 * (x &&& y).toInt + (x ^^^ y).toInt := by
  have hsum := add_eq_and_xor x.toNat y.toNat
  rw [← BitVec.toNat_and, ← BitVec.toNat_xor] at hsum
  simp only [BitVec.toInt_eq_msb_cond, BitVec.msb_and, BitVec.msb_xor]
  cases x.msb <;> cases y.msb <;> simp [-BitVec.toNat_and, -BitVec.toNat_xor] <;> omega

/-!
## Newton's iteration for integer square roots

The mean of `x` and `n / x` is not below the root of `n`, whatever `x` is, and it is below `x`
exactly while `x` is above the root. So an iteration that starts above the root and goes on
while it falls ends at the root.
-/

section IntegerRoot

variable {n x : Nat}

/-- The mean of a number and the quotient by it is at least the root. -/
theorem sqrt_le_mean (hx : 0 < x) : Nat.sqrt n ≤ (x + n / x) / 2 := by
  have hroot : Nat.sqrt n * Nat.sqrt n ≤ n := Nat.sqrt_le n
  generalize Nat.sqrt n = r at hroot ⊢
  have hdouble : 2 * r ≤ x + n / x := by
    rcases Nat.le_total (2 * r) x with hle | hle
    · exact hle.trans (Nat.le_add_right _ _)
    · obtain ⟨d, hd⟩ := Nat.exists_eq_add_of_le hle
      have hmul : d * x ≤ n := by
        refine le_trans ?_ hroot
        have hsq : (0 : Int) ≤ ((x : Int) - r) ^ 2 := sq_nonneg _
        have hd' : (d : Int) = 2 * r - x := by omega
        have hgoal : (d : Int) * x ≤ r * r := by rw [hd']; nlinarith only [hsq]
        exact_mod_cast hgoal
      have hquot : d ≤ n / x := (Nat.le_div_iff_mul_le hx).mpr hmul
      omega
  omega

/-- Where the mean does not fall, the number is not above the root. -/
theorem le_sqrt_of_le_mean (hx : 0 < x) (h : x ≤ (x + n / x) / 2) : x ≤ Nat.sqrt n := by
  have hquot : x ≤ n / x := by omega
  exact Nat.le_sqrt.mpr ((Nat.le_div_iff_mul_le hx).mp hquot)

/-- A number from 1 to `n` and the quotient by it do not add up to more than `n + 1`. -/
theorem add_div_le (hx : 0 < x) (hle : x ≤ n) : x + n / x ≤ n + 1 := by
  obtain ⟨d, rfl⟩ := Nat.exists_eq_add_of_le hle
  have hquot : (x + d) / x = 1 + d / x := by
    rw [Nat.add_div_left _ hx, Nat.add_comm]
  have hsmall : d / x ≤ d := Nat.div_le_self d x
  omega

end IntegerRoot

end Vani.Library
