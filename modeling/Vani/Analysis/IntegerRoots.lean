import Mathlib.Tactic.IntervalCases
import Vani.Library.Rounding
import Vani.Backend.Numeric
import Vani.Analysis.BinarySearch

/-!
# Exactness of the integer square roots

Every iterate lies between the root and `n`, so the sum of an iterate and its quotient is at
most `n + 1`. The first sum is exactly that, and it is the one that overflows: at the greatest
value of the type, and nowhere else.
-/

set_option autoImplicit false

namespace Vani.Analysis

open Vani.Library Vani.Backend
open Vec (signed)

variable {n x : Nat}

theorem signed_of_bounds {x : Int} (h0 : 0 ≤ x) (hlt : x < 2 ^ 63) : signed x = .done x := by
  have hlong : cLong.lo = -2 ^ 63 ∧ cLong.hi = 2 ^ 63 - 1 := ⟨rfl, rfl⟩
  apply signed_of_fits
  unfold IntType.Fits
  omega

theorem signed_natCast {k : Nat} (h : k < 2 ^ 63) : signed k = .done (k : Int) :=
  signed_of_bounds (Int.natCast_nonneg k) (by omega)

theorem quotient_of_pos {a b : Nat} (hb : 0 < b) (ha : a < 2 ^ 63) :
    quotient a b = .done ((a / b : Nat) : Int) := by
  unfold quotient
  rw [if_neg (by omega), Int.tdiv_eq_ediv_of_nonneg (Int.natCast_nonneg a), ← Int.natCast_ediv]
  exact signed_natCast ((Nat.div_le_self a b).trans_lt ha)

/-- A step computes the mean. -/
theorem newtonStep_done (hx : 0 < x) (hle : x ≤ n) (hn : n + 1 < 2 ^ 63) :
    newtonStep n x = .done (((x + n / x) / 2 : Nat) : Int) := by
  have hsum := add_div_le hx hle
  unfold newtonStep
  rw [quotient_of_pos hx (by omega), Outcome.done_bind, ← Nat.cast_add,
    signed_natCast (hsum.trans_lt hn), Outcome.done_bind]
  exact quotient_of_pos Nat.two_pos (hsum.trans_lt hn)

/-- The states of the iteration: an iterate from the root up to `n`, and the mean after it. -/
structure Iterating (n : Nat) (s : Int × Int) (x : Nat) : Prop where
  state : s = ((x : Int), (((x + n / x) / 2 : Nat) : Int))
  pos : 0 < x
  le : x ≤ n
  above : Nat.sqrt n ≤ x

/-- The iteration ends at the root. -/
theorem newton_done (h1 : 1 ≤ n) (hn : n + 1 < 2 ^ 63) : newton n = .done (Nat.sqrt n : Int) := by
  have hstart : Iterating n ((n : Int), (((n + n / n) / 2 : Nat) : Int)) n :=
    ⟨rfl, h1, le_rfl, Nat.sqrt_le_self n⟩
  have hloop : ∃ r, Outcome.loop (newtonTurn n) ((n : Int).toNat + 1)
      ((n : Int), (((n + n / n) / 2 : Nat) : Int)) = .done r ∧ r = Nat.sqrt n := by
    apply Outcome.loop_of_measure (fun s => ∃ x, Iterating n s x) (fun s => s.1.toNat)
      (Nat.lt_succ_self _) ⟨n, hstart⟩
    rintro s ⟨x, rfl, hpos, hle, habove⟩
    have hmean := sqrt_le_mean (n := n) hpos
    have hroot : 0 < Nat.sqrt n := Nat.sqrt_pos.mpr h1
    unfold newtonTurn
    dsimp only
    by_cases hfall : (x + n / x) / 2 < x
    · refine Or.inl ⟨_, ?_, ⟨_, rfl, hroot.trans_le hmean, by omega, hmean⟩, ?_⟩
      · rw [if_pos (by omega), newtonStep_done (hroot.trans_le hmean) (by omega) hn]
        rfl
      · dsimp only
        omega
    · have hend : x = Nat.sqrt n :=
        le_antisymm (le_sqrt_of_le_mean hpos (by omega)) habove
      exact Or.inr ⟨x, if_neg (by omega), congrArg _ hend⟩
  obtain ⟨r, hrun, rfl⟩ := hloop
  unfold newton
  rw [newtonStep_done h1 le_rfl hn, Outcome.done_bind]
  exact hrun

/-! ## The builtins -/

/-- What the three builtins have to do for `n`: the floor of the root, its ceiling, and
whether it is exact. -/
structure RootsExact (n : Int64) : Prop where
  floor : ∃ r, isqrt n = .done r ∧ 0 ≤ r ∧ r * r ≤ n.toInt ∧ n.toInt < (r + 1) * (r + 1)
  ceil : ∃ r, isqrtCeil n = .done r ∧ 0 ≤ r ∧ n.toInt ≤ r * r ∧
    ∀ s, 0 ≤ s → n.toInt ≤ s * s → r ≤ s
  square : ∃ b, isPerfectSquare n = .done b ∧ (b = true ↔ ∃ r, r * r = n.toInt)

variable {i : Int64} {k : Nat}

theorem sqrt_of_lt_two (h : k < 2) : Nat.sqrt k = k := by
  interval_cases k <;> rfl

theorem isqrt_done (hi : i.toInt = k) (hk : k + 1 < 2 ^ 63) : isqrt i = .done (Nat.sqrt k : Int) := by
  unfold isqrt
  rw [hi, if_neg (by omega)]
  by_cases hsmall : k < 2
  · rw [if_pos (by omega), sqrt_of_lt_two hsmall]
    rfl
  · rw [if_neg (by omega)]
    exact newton_done (by omega) hk

/-- The square of the root does not overflow. -/
theorem signed_square (hk : k + 1 < 2 ^ 63) :
    signed ((Nat.sqrt k : Int) * Nat.sqrt k) = .done ((Nat.sqrt k * Nat.sqrt k : Nat) : Int) := by
  have hle : Nat.sqrt k * Nat.sqrt k ≤ k := Nat.sqrt_le k
  rw [← Nat.cast_mul]
  exact signed_natCast (by omega)

theorem isqrtCeil_done (hi : i.toInt = k) (hk : k + 1 < 2 ^ 63) :
    isqrtCeil i =
      .done (if Nat.sqrt k * Nat.sqrt k = k then (Nat.sqrt k : Int) else (Nat.sqrt k : Int) + 1) := by
  unfold isqrtCeil
  rw [hi]
  by_cases hsmall : k < 2
  · rw [sqrt_of_lt_two hsmall]
    interval_cases k <;> rfl
  · have hroot : Nat.sqrt k ≤ k := Nat.sqrt_le_self k
    rw [if_neg (by omega), if_neg (by omega), newton_done (by omega) hk, Outcome.done_bind,
      signed_square hk, Outcome.done_bind]
    by_cases hsquare : Nat.sqrt k * Nat.sqrt k = k
    · rw [if_pos hsquare, if_pos (congrArg _ hsquare)]
      rfl
    · rw [if_neg hsquare, if_neg (fun h => hsquare (by exact_mod_cast h))]
      exact signed_natCast (show Nat.sqrt k + 1 < 2 ^ 63 by omega)

theorem isPerfectSquare_done (hi : i.toInt = k) (hk : k + 1 < 2 ^ 63) :
    isPerfectSquare i = .done (decide (Nat.sqrt k * Nat.sqrt k = k)) := by
  unfold isPerfectSquare
  rw [hi]
  by_cases hsmall : k < 2
  · rw [sqrt_of_lt_two hsmall]
    interval_cases k <;> rfl
  · rw [if_neg (by omega), if_neg (by omega), newton_done (by omega) hk, Outcome.done_bind,
      signed_square hk, Outcome.done_bind, Outcome.pure_eq]
    norm_cast

/-- A square has a root that is not negative. -/
theorem exists_square_iff : (∃ r : Int, r * r = k) ↔ Nat.sqrt k * Nat.sqrt k = k := by
  rw [← Nat.exists_mul_self]
  constructor
  · rintro ⟨r, hr⟩
    exact ⟨r.natAbs, by exact_mod_cast (Int.natAbs_mul_self (a := r)).trans hr⟩
  · rintro ⟨r, hr⟩
    exact ⟨r, by exact_mod_cast hr⟩

theorem rootsExact_of_lt (hi : i.toInt = k) (hk : k + 1 < 2 ^ 63) : RootsExact i := by
  have hle : Nat.sqrt k * Nat.sqrt k ≤ k := Nat.sqrt_le k
  have hlt : k < (Nat.sqrt k + 1) * (Nat.sqrt k + 1) := Nat.lt_succ_sqrt k
  refine ⟨⟨_, isqrt_done hi hk, Int.natCast_nonneg _, ?_, ?_⟩, ⟨_, isqrtCeil_done hi hk, ?_⟩,
    ⟨_, isPerfectSquare_done hi hk, ?_⟩⟩
  · rw [hi]
    exact_mod_cast hle
  · rw [hi]
    exact_mod_cast hlt
  · rw [hi]
    by_cases hsquare : Nat.sqrt k * Nat.sqrt k = k
    · rw [if_pos hsquare]
      refine ⟨Int.natCast_nonneg _, by exact_mod_cast hsquare.ge, fun s h0 hs => ?_⟩
      obtain ⟨m, rfl⟩ := Int.eq_ofNat_of_zero_le h0
      have hm : k ≤ m * m := by exact_mod_cast hs
      exact_mod_cast Nat.mul_self_le_mul_self_iff.mp (hsquare.le.trans hm)
    · rw [if_neg hsquare]
      refine ⟨by omega, by exact_mod_cast hlt.le, fun s h0 hs => ?_⟩
      obtain ⟨m, rfl⟩ := Int.eq_ofNat_of_zero_le h0
      have hm : k ≤ m * m := by exact_mod_cast hs
      have hstrict : Nat.sqrt k * Nat.sqrt k < m * m := by omega
      have hroot : Nat.sqrt k < m := Nat.mul_self_lt_mul_self_iff.mp hstrict
      omega
  · rw [decide_eq_true_iff, hi, exists_square_iff]

/-- The greatest value of `int64_t`, the only one with an inexact root. -/
def greatest : Int64 := 9223372036854775807

/-- At the greatest value the first sum overflows in all three builtins. -/
theorem roots_overflow :
    isqrt greatest = .stuck ∧ isqrtCeil greatest = .stuck ∧ isPerfectSquare greatest = .stuck := by
  decide +kernel

theorem not_rootsExact_greatest : ¬ RootsExact greatest := by
  rintro ⟨⟨r, hr, -⟩, -, -⟩
  rw [roots_overflow.1] at hr
  cases hr

/-- **The integer square roots** are exact, end and stay within `int64_t` for every number that
is not negative but the greatest, where the first sum of the iteration overflows.
Source: backend_c.rs:11049-11052, 11302-11311 -/
theorem rootsExact_iff (n : Int64) (hn : 0 ≤ n.toInt) : RootsExact n ↔ n ≠ greatest := by
  constructor
  · rintro h rfl
    exact not_rootsExact_greatest h
  · intro hne
    obtain ⟨k, hk⟩ := Int.eq_ofNat_of_zero_le hn
    have hlt : n.toInt < 2 ^ 63 := n.toInt_lt
    have hlast : n.toInt ≠ 2 ^ 63 - 1 := fun h => hne (Int64.toInt_inj.mp h)
    exact rootsExact_of_lt hk (by omega)

theorem rootsExact_seventeen : 0 ≤ (17 : Int64).toInt ∧ (RootsExact 17 ↔ (17 : Int64) ≠ greatest) :=
  ⟨by decide, rootsExact_iff 17 (by decide)⟩

theorem roots_inexact : ¬ ∀ n : Int64, 0 ≤ n.toInt → RootsExact n :=
  fun h => not_rootsExact_greatest (h greatest (by decide))

end Vani.Analysis
