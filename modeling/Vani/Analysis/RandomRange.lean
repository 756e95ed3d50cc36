import Vani.Backend.Numeric
import Vani.Library.XorShift
import Vani.Analysis.RoundedDivision

/-!
# Draws from a range

The state of a generator is never zero, whatever it is seeded with and however often it is
drawn from. A draw from a range is in the range as long as `int64_t` has the length.
-/

set_option autoImplicit false

namespace Vani.Analysis

open Vani.Library Vani.Backend
open Vec (signed)

/-- The states of a generator after some calls. -/
inductive Drawn : UInt64 → Prop
  | start : Drawn rngDefault
  | call {x x' : UInt64} {y : Int} (c : RngCall) : Drawn x → c.run x = .done (y, x') → Drawn x'

theorem rngDefault_ne_zero : rngDefault ≠ 0 := by decide

theorem rngSeed_ne_zero (s : UInt64) : rngSeed s ≠ 0 := by
  unfold rngSeed
  by_cases h : s = 0
  · rw [if_pos h]
    exact rngDefault_ne_zero
  · rw [if_neg h]
    exact h

/-- The three xor-shifts keep words other than zero. -/
theorem rngNext_ne_zero {x : UInt64} (hx : x ≠ 0) : rngNext x ≠ 0 := by
  have hword : x.toBitVec ≠ 0#64 := fun h => hx (UInt64.toBitVec_inj.mp h)
  intro h
  have hbits : (rngNext x).toBitVec = 0#64 := by
    rw [h]
    rfl
  exact xor_shiftLeft_ne_zero (k := 17) (by decide)
    (xor_ushiftRight_ne_zero (k := 7) (by decide)
      (xor_shiftLeft_ne_zero (k := 13) (by decide) hword)) hbits

/-- A draw from a range either leaves the state or draws once. -/
theorem rngInRange_state {lo hi : Int64} {x x' : UInt64} {y : Int}
    (h : rngInRange lo hi x = .done (y, x')) : x' = x ∨ x' = rngNext x := by
  unfold rngInRange at h
  by_cases hle : lo.toInt ≥ hi.toInt
  · rw [if_pos hle] at h
    cases h
    exact Or.inl rfl
  · rw [if_neg hle] at h
    obtain ⟨d, -, h⟩ := Outcome.bind_eq_done h
    obtain ⟨z, -, h⟩ := Outcome.bind_eq_done h
    cases h
    exact Or.inr rfl

/-- No call brings the state to zero. -/
theorem call_ne_zero {c : RngCall} {x x' : UInt64} {y : Int} (hx : x ≠ 0)
    (h : c.run x = .done (y, x')) : x' ≠ 0 := by
  cases c with
  | seed s =>
    cases h
    exact rngSeed_ne_zero s
  | next =>
    have hstate : rngNext x = x' := congrArg Prod.snd (Outcome.done.inj h)
    rw [← hstate]
    exact rngNext_ne_zero hx
  | inRange lo hi =>
    rcases rngInRange_state h with rfl | rfl
    · exact hx
    · exact rngNext_ne_zero hx

theorem Drawn.ne_zero {x : UInt64} (h : Drawn x) : x ≠ 0 := by
  induction h with
  | start => exact rngDefault_ne_zero
  | call c _ hrun ih => exact call_ne_zero ih hrun

/-- A draw from the range that is in it. -/
def DrawsWithin (lo hi : Int64) (x : UInt64) : Prop :=
  ∃ y x', rngInRange lo hi x = .done (y, x') ∧ lo.toInt ≤ y ∧ y < hi.toInt

theorem drawsWithin_iff {lo hi : Int64} (hlt : lo.toInt < hi.toInt) (x : UInt64) :
    DrawsWithin lo hi x ↔ hi.toInt - lo.toInt < 2 ^ 63 := by
  have hlo := toInt_range lo
  have hhi := toInt_range hi
  unfold DrawsWithin rngInRange
  rw [if_neg (by omega)]
  constructor
  · rintro ⟨y, x', h, -⟩
    apply Classical.byContradiction
    intro hover
    rw [signed_of_not_range (by omega)] at h
    cases h
  · intro hspan
    obtain ⟨k, hk⟩ : ∃ k : Nat, hi.toInt - lo.toInt = k :=
      ⟨_, (Int.toNat_of_nonneg (by omega)).symm⟩
    have hwrap : cUnsignedLong.wrap (k : Int) = k := by
      apply IntType.wrap_of_fits (by decide)
      have hlong : cUnsignedLong.lo = 0 ∧ cUnsignedLong.hi = 2 ^ 64 - 1 := ⟨rfl, rfl⟩
      unfold IntType.Fits
      omega
    have hmod : (rngNext x).toNat % k < k := Nat.mod_lt _ (by omega)
    rw [hk, signed_of_range (by omega) (by omega), Outcome.done_bind]
    dsimp only
    rw [hwrap, Int.toNat_natCast, toInt64_of_lt (by omega), signed_of_range (by omega) (by omega)]
    exact ⟨_, _, rfl, by omega, by omega⟩

/-- In every state of a generator, which is never zero, a draw is in its range exactly where
`int64_t` has the length of the range. -/
theorem randomRange_iff (x : UInt64) (hx : Drawn x) (lo hi : Int64) (hlt : lo.toInt < hi.toInt) :
    x ≠ 0 ∧ DrawsWithin lo hi x ↔ hi.toInt - lo.toInt < 2 ^ 63 := by
  rw [← drawsWithin_iff hlt x]
  exact and_iff_right hx.ne_zero

/-- A die, after the seed zero. -/
theorem randomRange_die : Drawn (rngSeed 0) ∧ (1 : Int64).toInt < (7 : Int64).toInt ∧
    (rngSeed 0 ≠ 0 ∧ DrawsWithin 1 7 (rngSeed 0) ↔
      (7 : Int64).toInt - (1 : Int64).toInt < 2 ^ 63) :=
  ⟨.call (.seed 0) .start rfl, by decide,
    randomRange_iff (rngSeed 0) (.call (.seed 0) .start rfl) 1 7 (by decide)⟩

/-- The length of the whole range overflows. -/
theorem randomRange_overflows : ¬ ∀ x, Drawn x → ∀ lo hi : Int64, lo.toInt < hi.toInt →
    x ≠ 0 ∧ DrawsWithin lo hi x := by
  intro h
  obtain ⟨-, y, x', hrun, -⟩ :=
    h rngDefault .start (-9223372036854775808) 9223372036854775807 (by decide)
  have hstuck : rngInRange (-9223372036854775808) 9223372036854775807 rngDefault = .stuck := by
    decide
  rw [hstuck] at hrun
  cases hrun

end Vani.Analysis
