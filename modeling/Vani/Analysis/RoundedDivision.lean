import Vani.Library.Rounding
import Vani.Backend.Arithmetic
import Vani.Analysis.IntegerRoots

/-!
# Rounded division, wrapping and means

Floor, ceiling and the remainder of the floor are right for all operands whose quotient C has.
Rounding to the nearest adds half the divisor to the dividend in absolute values, and is right
where this sum is in `int64_t`; wrapping into a range is right where the two differences it
takes are. The mean never leaves the type.
-/

set_option autoImplicit false

namespace Vani.Analysis

open Vani.Library Vani.Backend
open Vec (signed)

theorem toInt_range (a : Int64) : -2 ^ 63 ≤ a.toInt ∧ a.toInt < 2 ^ 63 :=
  ⟨Int64.le_toInt a, Int64.toInt_lt a⟩

theorem signed_of_range {x : Int} (hlo : -2 ^ 63 ≤ x) (hhi : x < 2 ^ 63) : signed x = .done x := by
  have hlong : cLong.lo = -2 ^ 63 ∧ cLong.hi = 2 ^ 63 - 1 := ⟨rfl, rfl⟩
  apply signed_of_fits
  unfold IntType.Fits
  omega

theorem signed_of_not_range {x : Int} (h : ¬ (-2 ^ 63 ≤ x ∧ x < 2 ^ 63)) : signed x = .stuck := by
  have hlong : cLong.lo = -2 ^ 63 ∧ cLong.hi = 2 ^ 63 - 1 := ⟨rfl, rfl⟩
  apply if_neg
  unfold IntType.Fits
  omega

/-! ## Quotient and remainder of C -/

/-- The operands of a division that C defines. -/
structure Divides (a b : Int) : Prop where
  range : -2 ^ 63 ≤ a ∧ a < 2 ^ 63
  nonzero : b ≠ 0
  legal : ¬ (a = -2 ^ 63 ∧ b = -1)

variable {a b : Int}

theorem natAbs_tdiv_le (h : 2 ≤ b.natAbs) : (a.tdiv b).natAbs ≤ a.natAbs / 2 := by
  rw [Int.natAbs_tdiv]
  exact Nat.div_le_div_left h (by decide)

/-- The quotient has the type of the operands. -/
theorem Divides.quotient_range (h : Divides a b) : -2 ^ 63 ≤ a.tdiv b ∧ a.tdiv b < 2 ^ 63 := by
  obtain ⟨⟨hlo, hhi⟩, hb, hlegal⟩ := h
  by_cases h2 : 2 ≤ b.natAbs
  · have hle := natAbs_tdiv_le (a := a) h2
    omega
  · rcases (show b = 1 ∨ b = -1 by omega) with rfl | rfl
    · rw [Int.tdiv_one]
      omega
    · rw [Int.tdiv_neg, Int.tdiv_one]
      omega

theorem Divides.quotient_done (h : Divides a b) : quotient a b = .done (a.tdiv b) := by
  unfold quotient
  rw [if_neg h.nonzero]
  exact signed_of_range h.quotient_range.1 h.quotient_range.2

theorem Divides.remainder_done (h : Divides a b) : remainderOf a b = .done (a.tmod b) := by
  unfold remainderOf
  rw [h.quotient_done]
  rfl

/-- The remainder is smaller than the divisor and has the sign of the dividend. -/
theorem tmod_signs (hb : b ≠ 0) : (a.tmod b).natAbs < b.natAbs ∧ (0 ≤ a → 0 ≤ a.tmod b) ∧
    (a ≤ 0 → a.tmod b ≤ 0) := by
  refine ⟨?_, Int.tmod_nonneg b, ?_⟩
  · rw [Int.natAbs_tmod]
    exact Nat.mod_lt _ (by omega)
  · intro ha
    have hneg := Int.tmod_nonneg b (Int.neg_nonneg_of_nonpos ha)
    rw [Int.neg_tmod] at hneg
    omega

/-- A division that leaves a remainder has a quotient of half the size. -/
theorem quotient_small (hlo : -2 ^ 63 ≤ a) (hhi : a < 2 ^ 63) (hb : b ≠ 0) (hr : a.tmod b ≠ 0) :
    (a.tdiv b).natAbs ≤ 2 ^ 62 := by
  have h2 : 2 ≤ b.natAbs := by
    have hlt := (tmod_signs (a := a) hb).1
    omega
  have hle := natAbs_tdiv_le (a := a) h2
  omega

/-- The highest digit of `a ^ b` tells whether the signs differ. -/
theorem xor_neg_iff (a b : Int64) :
    (a ^^^ b).toInt < 0 ↔ (a.toInt < 0 ↔ ¬ b.toInt < 0) := by
  have hmsb : (a ^^^ b).toBitVec.msb = (a.toBitVec.msb ^^ b.toBitVec.msb) := by
    rw [Int64.toBitVec_xor, BitVec.msb_xor]
  rw [BitVec.msb_eq_toInt, BitVec.msb_eq_toInt, BitVec.msb_eq_toInt] at hmsb
  show (a ^^^ b).toBitVec.toInt < 0 ↔ (a.toBitVec.toInt < 0 ↔ ¬ b.toBitVec.toInt < 0)
  rw [Bool.eq_iff_iff, decide_eq_true_iff, Bool.xor_iff_ne, ne_eq, decide_eq_decide] at hmsb
  omega

/-! ## Rounded division -/

section Division

variable {i j : Int64}

theorem divFloor_done (h : Divides i.toInt j.toInt) :
    i64DivFloor i j = .done ⌊(i.toInt : ℚ) / j.toInt⌋ := by
  have hdiv := Int.mul_tdiv_add_tmod i.toInt j.toInt
  obtain ⟨hsize, hpos, hneg⟩ := tmod_signs (a := i.toInt) h.nonzero
  have hsigns := xor_neg_iff i j
  unfold i64DivFloor
  rw [h.quotient_done, h.remainder_done, Outcome.done_bind, Outcome.done_bind]
  by_cases hfix : i.toInt.tmod j.toInt ≠ 0 ∧ (i ^^^ j).toInt < 0
  · have hsmall := quotient_small h.range.1 h.range.2 h.nonzero hfix.1
    have hfloor : ⌊(i.toInt : ℚ) / j.toInt⌋ = i.toInt.tdiv j.toInt - 1 := by
      apply floor_ratio (r := i.toInt.tmod j.toInt + j.toInt)
      · rw [mul_sub]
        omega
      · omega
    rw [if_pos hfix, signed_of_range (by omega) (by omega), hfloor]
  · rw [if_neg hfix, floor_ratio hdiv.symm (by omega)]
    rfl

theorem modFloor_done (h : Divides i.toInt j.toInt) :
    i64ModFloor i j = .done (i.toInt - j.toInt * ⌊(i.toInt : ℚ) / j.toInt⌋) := by
  have hdiv := Int.mul_tdiv_add_tmod i.toInt j.toInt
  have hj := toInt_range j
  obtain ⟨hsize, hpos, hneg⟩ := tmod_signs (a := i.toInt) h.nonzero
  have hsigns := xor_neg_iff i j
  unfold i64ModFloor
  rw [h.remainder_done, Outcome.done_bind]
  by_cases hfix : i.toInt.tmod j.toInt ≠ 0 ∧ (i ^^^ j).toInt < 0
  · have hfloor : ⌊(i.toInt : ℚ) / j.toInt⌋ = i.toInt.tdiv j.toInt - 1 := by
      apply floor_ratio (r := i.toInt.tmod j.toInt + j.toInt)
      · rw [mul_sub]
        omega
      · omega
    rw [if_pos hfix, signed_of_range (by omega) (by omega), hfloor, mul_sub]
    congr 1
    omega
  · rw [if_neg hfix, floor_ratio hdiv.symm (by omega)]
    show Outcome.done _ = Outcome.done _
    congr 1
    omega

theorem divCeil_done (h : Divides i.toInt j.toInt) :
    i64DivCeil i j = .done ⌈(i.toInt : ℚ) / j.toInt⌉ := by
  have hdiv := Int.mul_tdiv_add_tmod i.toInt j.toInt
  obtain ⟨hsize, hpos, hneg⟩ := tmod_signs (a := i.toInt) h.nonzero
  unfold i64DivCeil
  rw [h.quotient_done, h.remainder_done, Outcome.done_bind, Outcome.done_bind]
  by_cases hfix : i.toInt.tmod j.toInt ≠ 0 ∧ (i.toInt < 0 ↔ j.toInt < 0)
  · have hsmall := quotient_small h.range.1 h.range.2 h.nonzero hfix.1
    have hceil : ⌈(i.toInt : ℚ) / j.toInt⌉ = i.toInt.tdiv j.toInt + 1 := by
      apply ceil_ratio (r := i.toInt.tmod j.toInt - j.toInt)
      · rw [mul_add]
        omega
      · omega
    rw [if_pos hfix, signed_of_range (by omega) (by omega), hceil]
  · rw [if_neg hfix, ceil_ratio hdiv.symm (by omega)]
    rfl

/-- Absolute values, except of the least number. -/
theorem magnitude_done {x : Int} (hlo : -2 ^ 63 < x) (hhi : x < 2 ^ 63) :
    magnitude x = .done (x.natAbs : Int) := by
  unfold magnitude
  by_cases h : x < 0
  · rw [if_pos h, signed_of_range (by omega) (by omega)]
    congr 1
    omega
  · rw [if_neg h]
    show Outcome.done x = _
    congr 1
    omega

theorem magnitude_least : magnitude (-2 ^ 63) = .stuck := by decide

/-- The sum that is divided is in `int64_t`. -/
def HalfFits (i j : Int64) : Prop :=
  j.toInt ≠ -2 ^ 63 ∧ i.toInt.natAbs + j.toInt.natAbs / 2 < 2 ^ 63

/-- The nearest integer of the quotient of the absolute values. -/
theorem roundsTo_magnitudes (hb : b ≠ 0) :
    RoundsTo ((a.natAbs : ℚ) / b.natAbs) ((a.natAbs + b.natAbs / 2) / b.natAbs : ℕ) := by
  have hpos : 0 < b.natAbs := by omega
  have hlow := Nat.div_mul_le_self (a.natAbs + b.natAbs / 2) b.natAbs
  have hhigh := Nat.lt_div_mul_add (a := a.natAbs + b.natAbs / 2) hpos
  apply roundsTo_of_natural hpos <;> omega

/-- The quotient from that of the absolute values. -/
theorem ratio_magnitudes (a b : Int) : (a : ℚ) / b =
    if a < 0 ↔ b < 0 then (a.natAbs : ℚ) / b.natAbs else -((a.natAbs : ℚ) / b.natAbs) := by
  have hsigned : ∀ x : Int, (x : ℚ) = if x < 0 then -(x.natAbs : ℚ) else x.natAbs := by
    intro x
    by_cases hx : x < 0
    · rw [if_pos hx, Nat.cast_natAbs, abs_of_neg hx]
      push_cast
      rw [neg_neg]
    · rw [if_neg hx, Nat.cast_natAbs, abs_of_nonneg (not_lt.mp hx)]
  rw [hsigned a, hsigned b]
  by_cases ha : a < 0 <;> by_cases hb : b < 0 <;> simp [ha, hb, neg_div, div_neg]

theorem divRound_done (hb : j.toInt ≠ 0) (h : HalfFits i j) :
    ∃ q, i64DivRound i j = .done q ∧ RoundsTo ((i.toInt : ℚ) / j.toInt) q := by
  have hi := toInt_range i
  have hj := toInt_range j
  obtain ⟨hleast, hsum⟩ := h
  have hround := roundsTo_magnitudes (a := i.toInt) hb
  have hle : (i.toInt.natAbs + j.toInt.natAbs / 2) / j.toInt.natAbs ≤
      i.toInt.natAbs + j.toInt.natAbs / 2 := Nat.div_le_self _ _
  have hnonneg := Int.natCast_nonneg
    ((i.toInt.natAbs + j.toInt.natAbs / 2) / j.toInt.natAbs)
  have hq : quotient ((i.toInt.natAbs + j.toInt.natAbs / 2 : ℕ) : Int) j.toInt.natAbs =
      .done (((i.toInt.natAbs + j.toInt.natAbs / 2) / j.toInt.natAbs : ℕ) : Int) :=
    quotient_of_pos (by omega) hsum
  have hhalf : quotient (j.toInt.natAbs : Int) 2 = .done ((j.toInt.natAbs / 2 : ℕ) : Int) :=
    quotient_of_pos (b := 2) (by decide) (by omega)
  have hadd : signed ((i.toInt.natAbs : Int) + (j.toInt.natAbs / 2 : ℕ)) =
      .done ((i.toInt.natAbs + j.toInt.natAbs / 2 : ℕ) : Int) := by
    rw [← Int.natCast_add]
    exact signed_natCast hsum
  unfold i64DivRound
  rw [magnitude_done (by omega) (by omega), magnitude_done (by omega) (by omega),
    Outcome.done_bind, Outcome.done_bind, hhalf, Outcome.done_bind, hadd, Outcome.done_bind, hq,
    Outcome.done_bind, ratio_magnitudes]
  by_cases hsigns : i.toInt < 0 ↔ j.toInt < 0
  · rw [if_pos hsigns, if_pos hsigns]
    exact ⟨_, rfl, hround⟩
  · rw [if_neg hsigns, if_neg hsigns, signed_of_range (by omega) (by omega)]
    exact ⟨_, rfl, hround.neg⟩

theorem divRound_stuck (h : ¬ HalfFits i j) : i64DivRound i j = .stuck := by
  have hi := toInt_range i
  have hj := toInt_range j
  unfold i64DivRound
  by_cases hi' : i.toInt = -2 ^ 63
  · rw [hi', magnitude_least]
    rfl
  · rw [magnitude_done (by omega) (by omega), Outcome.done_bind]
    by_cases hj' : j.toInt = -2 ^ 63
    · rw [hj', magnitude_least]
      rfl
    · have hhalf : quotient (j.toInt.natAbs : Int) 2 = .done ((j.toInt.natAbs / 2 : ℕ) : Int) :=
        quotient_of_pos (b := 2) (by decide) (by omega)
      have hover : ¬ i.toInt.natAbs + j.toInt.natAbs / 2 < 2 ^ 63 := fun hsum => h ⟨hj', hsum⟩
      rw [magnitude_done (by omega) (by omega), Outcome.done_bind, hhalf, Outcome.done_bind,
        signed_of_not_range (by omega)]
      rfl

/-- The builtins compute the roundings of the rational quotient. -/
structure DivisionExact (i j : Int64) : Prop where
  floor : i64DivFloor i j = .done ⌊(i.toInt : ℚ) / j.toInt⌋
  ceil : i64DivCeil i j = .done ⌈(i.toInt : ℚ) / j.toInt⌉
  modulo : i64ModFloor i j = .done (i.toInt - j.toInt * ⌊(i.toInt : ℚ) / j.toInt⌋)
  round : ∃ q, i64DivRound i j = .done q ∧ RoundsTo ((i.toInt : ℚ) / j.toInt) q

/-- The divisions are right exactly where half the divisor can be added to the dividend. -/
theorem divisionExact_iff (i j : Int64) (hj : j.toInt ≠ 0)
    (hlegal : ¬ (i.toInt = -2 ^ 63 ∧ j.toInt = -1)) : DivisionExact i j ↔ HalfFits i j := by
  have h : Divides i.toInt j.toInt := ⟨toInt_range i, hj, hlegal⟩
  constructor
  · rintro ⟨-, -, -, q, hq, -⟩
    apply Classical.byContradiction
    intro hover
    rw [divRound_stuck hover] at hq
    cases hq
  · intro hhalf
    exact ⟨divFloor_done h, divCeil_done h, modFloor_done h, divRound_done hj hhalf⟩

/-- `7 / -2`. -/
theorem divisionExact_seven : (-2 : Int64).toInt ≠ 0 ∧
    ¬ ((7 : Int64).toInt = -2 ^ 63 ∧ (-2 : Int64).toInt = -1) ∧
    (DivisionExact 7 (-2) ↔ HalfFits 7 (-2)) :=
  ⟨by decide, by decide, divisionExact_iff 7 (-2) (by decide) (by decide)⟩

/-- Half of the greatest number, rounded, overflows. -/
theorem division_inexact : ¬ ∀ i j : Int64, j.toInt ≠ 0 →
    ¬ (i.toInt = -2 ^ 63 ∧ j.toInt = -1) → DivisionExact i j := by
  intro h
  obtain ⟨q, hq, -⟩ := (h greatest 2 (by decide) (by decide)).round
  have hstuck : i64DivRound greatest 2 = .stuck := by decide
  rw [hstuck] at hq
  cases hq

end Division

/-! ## Wrapping and means -/

/-- The result is in the range and a multiple of its length away. -/
def WrapExact (x lo hi : Int64) : Prop :=
  ∃ y, i64Wrap x lo hi = .done y ∧ lo.toInt ≤ y ∧ y < hi.toInt ∧ hi.toInt - lo.toInt ∣ y - x.toInt

/-- The mean, rounded down. -/
def AvgExact (a b : Int64) : Prop :=
  i64Avg a b = .done ⌊((a.toInt + b.toInt : ℤ) : ℚ) / (2 : ℤ)⌋

/-- Both differences are in `int64_t`. -/
def Spans (x lo hi : Int64) : Prop :=
  hi.toInt - lo.toInt < 2 ^ 63 ∧ -2 ^ 63 ≤ x.toInt - lo.toInt ∧ x.toInt - lo.toInt < 2 ^ 63

theorem avg_exact (a b : Int64) : AvgExact a b := by
  have hsum : a.toInt + b.toInt = 2 * (a &&& b).toInt + (a ^^^ b).toInt :=
    toInt_add_toInt a.toBitVec b.toBitVec
  have ha := toInt_range a
  have hb := toInt_range b
  have hhalf : (a ^^^ b).toInt >>> (1 : Nat) = (a ^^^ b).toInt / 2 := Int.shiftRight_eq_div_pow _ 1
  have hfloor : ⌊((a.toInt + b.toInt : ℤ) : ℚ) / (2 : ℤ)⌋ =
      (a &&& b).toInt + (a ^^^ b).toInt >>> (1 : Nat) := by
    apply floor_ratio (r := (a ^^^ b).toInt % 2)
    · omega
    · omega
  unfold AvgExact i64Avg
  rw [hfloor]
  exact signed_of_range (by omega) (by omega)

/-- The remainder of the offset, made non-negative. -/
theorem wrap_exact {x lo hi : Int64} (hlt : lo.toInt < hi.toInt) (h : Spans x lo hi) :
    WrapExact x lo hi := by
  obtain ⟨hspan, hlow, hhigh⟩ := h
  have hlo := toInt_range lo
  have hhi := toInt_range hi
  have hdiv := Int.mul_tdiv_add_tmod (x.toInt - lo.toInt) (hi.toInt - lo.toInt)
  have hlegal : Divides (x.toInt - lo.toInt) (hi.toInt - lo.toInt) :=
    ⟨⟨hlow, hhigh⟩, by omega, by omega⟩
  obtain ⟨hsize, hpos, hneg⟩ := tmod_signs (a := x.toInt - lo.toInt) hlegal.nonzero
  unfold WrapExact i64Wrap
  rw [signed_of_range (by omega) hspan, Outcome.done_bind, if_neg (by omega),
    signed_of_range hlow hhigh, Outcome.done_bind, hlegal.remainder_done, Outcome.done_bind]
  by_cases hm : (x.toInt - lo.toInt).tmod (hi.toInt - lo.toInt) < 0
  · rw [if_pos hm, signed_of_range (by omega) (by omega), Outcome.done_bind]
    beta_reduce
    rw [signed_of_range (by omega) (by omega)]
    refine ⟨_, rfl, by omega, by omega,
      1 - (x.toInt - lo.toInt).tdiv (hi.toInt - lo.toInt), ?_⟩
    rw [mul_sub]
    omega
  · rw [if_neg hm, Outcome.pure_eq, Outcome.done_bind]
    beta_reduce
    rw [signed_of_range (by omega) (by omega)]
    refine ⟨_, rfl, by omega, by omega, -(x.toInt - lo.toInt).tdiv (hi.toInt - lo.toInt), ?_⟩
    rw [mul_neg]
    omega

theorem wrap_stuck {x lo hi : Int64} (hlt : lo.toInt < hi.toInt) (h : ¬ Spans x lo hi) :
    i64Wrap x lo hi = .stuck := by
  unfold i64Wrap
  by_cases hspan : hi.toInt - lo.toInt < 2 ^ 63
  · rw [signed_of_range (by omega) hspan, Outcome.done_bind, if_neg (by omega),
      signed_of_not_range fun hoff => h ⟨hspan, hoff⟩]
    rfl
  · rw [signed_of_not_range (by omega)]
    rfl

/-- Wrapping and the mean are right exactly where both differences are in `int64_t`. -/
theorem wrapAvg_iff (x lo hi a b : Int64) (hlt : lo.toInt < hi.toInt) :
    WrapExact x lo hi ∧ AvgExact a b ↔ Spans x lo hi := by
  constructor
  · rintro ⟨⟨y, hy, -⟩, -⟩
    apply Classical.byContradiction
    intro hover
    rw [wrap_stuck hlt hover] at hy
    cases hy
  · intro h
    exact ⟨wrap_exact hlt h, avg_exact a b⟩

/-- An angle below zero. -/
theorem wrapAvg_angle : (0 : Int64).toInt < (360 : Int64).toInt ∧
    (WrapExact (-30) 0 360 ∧ AvgExact (-3) 4 ↔ Spans (-30) 0 360) :=
  ⟨by decide, wrapAvg_iff (-30) 0 360 (-3) 4 (by decide)⟩

/-- The length of a range from below zero to the greatest number overflows. -/
theorem wrap_inexact : ¬ ∀ x lo hi a b : Int64, lo.toInt < hi.toInt →
    WrapExact x lo hi ∧ AvgExact a b := by
  intro h
  obtain ⟨⟨y, hy, -⟩, -⟩ := h 0 (-1) greatest 0 0 (by decide)
  have hstuck : i64Wrap 0 (-1) greatest = .stuck := by decide
  rw [hstuck] at hy
  cases hy

end Vani.Analysis
