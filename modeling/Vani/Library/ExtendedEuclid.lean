import Mathlib.Algebra.Order.Ring.Abs
import Mathlib.Algebra.Ring.Divisibility.Basic
import Mathlib.Data.Int.ModEq
import Mathlib.Data.Int.GCD
import Mathlib.Tactic.Linarith
import Mathlib.Tactic.Ring

/-!
# Extended Euclid's algorithm

The pairs of a remainder and the coefficient of `a` that go with it. The coefficients alternate
in sign and the remainders weighted with the coefficients of each other always sum up to the
modulus, which bounds every product and difference of the algorithm by the modulus and the last
coefficient by its half.
-/

set_option autoImplicit false

namespace Vani.Library

/-- Two consecutive remainders `g` and `h` of the algorithm on `m` and `a`, with their
coefficients `x` and `y`; `s` is the sign of `x` and `u` and `v` are the absolute values. -/
structure Bezout (m a g x h y : ℤ) : Prop where
  order : 0 ≤ h ∧ h < g
  first : g ≡ a * x [ZMOD m]
  second : h ≡ a * y [ZMOD m]
  gcd : Int.gcd g h = Int.gcd a m
  weights : ∃ s u v : ℤ, (s = 1 ∨ s = -1) ∧ 0 ≤ u ∧ 0 < v ∧ x = s * u ∧ y = -(s * v) ∧
    g * v + h * u = m ∧ (g + 1) * u ≤ m

variable {m a g x h y : ℤ}

/-- The algorithm starts with the modulus and a residue. -/
theorem bezout_start (hm : 0 < m) : Bezout m a m 0 (a % m) 1 := by
  refine ⟨⟨Int.emod_nonneg a hm.ne', Int.emod_lt_of_pos a hm⟩, ?_, ?_, ?_, ?_⟩
  · rw [mul_zero]
    exact Int.modEq_zero_iff_dvd.mpr (dvd_refl m)
  · rw [mul_one]
    exact Int.mod_modEq a m
  · rw [Int.gcd_comm, Int.gcd_emod]
  · exact ⟨-1, 0, 1, Or.inr rfl, le_rfl, one_pos, by ring, by ring, by ring, by linarith⟩

namespace Bezout

/-- The modulus bounds the remainders. -/
theorem le_modulus (hb : Bezout m a g x h y) : g ≤ m := by
  obtain ⟨s, u, v, -, hu, hv, -, hy, hsum, -⟩ := hb.weights
  have hg : 0 < g := hb.order.1.trans_lt hb.order.2
  have hgv : g * 1 ≤ g * v := mul_le_mul_of_nonneg_left hv hg.le
  have hhu : 0 ≤ h * u := mul_nonneg hb.order.1 hu
  linarith

/-- What a turn subtracts and what it gets. -/
theorem turn_bounds (hb : Bezout m a g x h y) (hpos : 0 < h) :
    0 ≤ g / h * h ∧ g / h * h ≤ g ∧ |g / h * y| ≤ m ∧ |x - g / h * y| ≤ m := by
  obtain ⟨s, u, v, hs, hu, hv, hx, hy, hsum, -⟩ := hb.weights
  have hg : 0 < g := hb.order.1.trans_lt hb.order.2
  have hq : 0 ≤ g / h := Int.ediv_nonneg hg.le hpos.le
  have hle : g / h * h ≤ g := Int.ediv_mul_le g hpos.ne'
  have hqv : 0 ≤ g / h * v := mul_nonneg hq hv.le
  have hproduct : g / h * h * v ≤ g * v := mul_le_mul_of_nonneg_right hle hv.le
  have hweight : h * (u + g / h * v) ≤ m := by
    have hsplit : h * (u + g / h * v) = g / h * h * v + h * u := by ring
    linarith
  have hlow : u + g / h * v ≤ h * (u + g / h * v) := by
    have hmul := mul_le_mul_of_nonneg_right (show 1 ≤ h from hpos) (add_nonneg hu hqv)
    rwa [one_mul] at hmul
  have habs : |s| = 1 := by rcases hs with rfl | rfl <;> rfl
  refine ⟨mul_nonneg hq hpos.le, hle, ?_, ?_⟩
  · rw [hy, show g / h * -(s * v) = -(s * (g / h * v)) by ring, abs_neg, abs_mul, habs, one_mul,
      abs_of_nonneg hqv]
    linarith
  · rw [hx, hy, show s * u - g / h * -(s * v) = s * (u + g / h * v) by ring, abs_mul, habs,
      one_mul, abs_of_nonneg (add_nonneg hu hqv)]
    linarith

/-- A turn of the algorithm. -/
theorem turn (hb : Bezout m a g x h y) (hpos : 0 < h) :
    Bezout m a h y (g - g / h * h) (x - g / h * y) := by
  obtain ⟨s, u, v, hs, hu, hv, hx, hy, hsum, -⟩ := hb.weights
  have hq : 0 < g / h := (Int.le_ediv_iff_mul_le hpos).mpr (by linarith [hb.order.2])
  have hrest : g - g / h * h = g % h := by
    rw [Int.emod_def, mul_comm]
  refine ⟨?_, hb.second, ?_, ?_, ?_⟩
  · rw [hrest]
    exact ⟨Int.emod_nonneg g hpos.ne', Int.emod_lt_of_pos g hpos⟩
  · rw [mul_sub, show a * (g / h * y) = g / h * (a * y) by ring]
    exact hb.first.sub (hb.second.mul_left _)
  · rw [hrest, ← hb.gcd, Int.gcd_comm, Int.gcd_emod, Int.gcd_comm]
  · refine ⟨-s, v, u + g / h * v, ?_, hv.le, by linarith [mul_pos hq hv], ?_, ?_, ?_, ?_⟩
    · rcases hs with rfl | rfl
      · exact Or.inr rfl
      · exact Or.inl (neg_neg 1)
    · rw [hy]
      ring
    · rw [hx, hy]
      ring
    · rw [← hsum]
      ring
    · have hstep : (h + 1) * v ≤ g * v := mul_le_mul_of_nonneg_right hb.order.2 hv.le
      have hhu : 0 ≤ h * u := mul_nonneg hpos.le hu
      linarith

/-- The algorithm ends with the greatest common divisor. -/
theorem end_gcd (hb : Bezout m a g x 0 y) : g = Int.gcd a m := by
  have hg := hb.gcd
  rw [Int.gcd_zero_right] at hg
  have hpos := hb.order.2
  omega

/-- Where this is one, the coefficient is an inverse, of at most half the modulus. -/
theorem inverse (hb : Bezout m a 1 x 0 y) : a * x ≡ 1 [ZMOD m] ∧ 2 * |x| ≤ m := by
  obtain ⟨s, u, v, hs, hu, -, hx, -, -, hhalf⟩ := hb.weights
  have habs : |s| = 1 := by rcases hs with rfl | rfl <;> rfl
  refine ⟨hb.first.symm, ?_⟩
  rw [hx, abs_mul, habs, one_mul, abs_of_nonneg hu]
  linarith

end Bezout

/-- Two inverses of at most half the modulus are the same, unless the modulus is two. -/
theorem inverse_unique (hm : 2 < m) (hx : a * x ≡ 1 [ZMOD m]) (hy : a * y ≡ 1 [ZMOD m])
    (hx' : 2 * |x| ≤ m) (hy0 : 0 < y) (hy' : 2 * y ≤ m) : x = y := by
  have hsame : x ≡ y [ZMOD m] := by
    have hleft : x ≡ a * y * x [ZMOD m] := by
      have hmul := hy.symm.mul_right x
      rwa [one_mul] at hmul
    have hright : a * x * y ≡ y [ZMOD m] := by
      have hmul := hx.mul_right y
      rwa [one_mul] at hmul
    refine hleft.trans ?_
    rw [show a * y * x = a * x * y by ring]
    exact hright
  obtain ⟨k, hk⟩ := hsame.dvd
  have hbound := abs_le.mp (show |x| ≤ m / 2 by omega)
  by_cases h0 : k = 0
  · rw [h0, mul_zero] at hk
    linarith
  · exfalso
    -- the distance is a whole modulus, so `y` is half of it and divides one
    have hk1 : k = 1 := by
      have hlt : m * k < m * 2 := by omega
      have hgt : m * (-1) < m * k := by omega
      have h2 := lt_of_mul_lt_mul_left hlt (by omega)
      have h1 := lt_of_mul_lt_mul_left hgt (by omega)
      omega
    rw [hk1, mul_one] at hk
    have hhalf : m = 2 * y := by omega
    have hone : y ∣ 1 := by
      have hdvd : y ∣ 1 - a * y := (Dvd.intro_left 2 hhalf.symm).trans hy.dvd
      have hsum := dvd_add hdvd (Dvd.intro_left a rfl)
      rwa [sub_add_cancel] at hsum
    have hle := Int.le_of_dvd one_pos hone
    omega

end Vani.Library
