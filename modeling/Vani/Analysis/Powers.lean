import Mathlib.Data.Int.ModEq
import Mathlib.Data.Nat.Log
import Vani.Analysis.RoundedDivision

/-!
# Powers

Both builtins square the base and halve the exponent. `pow` squares the base in its last round
too, where the square is no longer used: it is right exactly where this last square is in
`int64_t`. `pow_mod` reduces every product, and is right for every modulus whose greatest
residue has a square in `int64_t`.
-/

set_option autoImplicit false

namespace Vani.Analysis

open Vani.Library Vani.Backend
open Vec (signed)

/-- A power from one of the square. -/
theorem pow_halves {M : Type} [Monoid M] (b : M) (k : ℕ) :
    b ^ k = b ^ (k % 2) * (b * b) ^ (k / 2) := by
  rw [← pow_two, ← pow_mul, ← pow_add, Nat.mod_add_div]

/-- Powers of a smaller exponent are in `int64_t` with those of a greater one. -/
theorem fits_pow {b : ℤ} {k l : ℕ} (hle : k ≤ l) (h : b ^ l < 2 ^ 63) (heven : 0 ≤ b ^ l) :
    -2 ^ 63 ≤ b ^ k ∧ b ^ k < 2 ^ 63 := by
  have habs : |b ^ l| < 2 ^ 63 := by rwa [abs_of_nonneg heven]
  have hbound : |b ^ k| < 2 ^ 63 := by
    rw [abs_pow] at habs ⊢
    rcases (abs_nonneg b).eq_or_lt with h0 | h0
    · rw [← h0]
      cases k with
      | zero => decide
      | succ k =>
        rw [zero_pow (Nat.succ_ne_zero k)]
        decide
    · exact (pow_le_pow_right₀ (show 1 ≤ |b| by omega) hle).trans_lt habs
  rw [abs_lt] at hbound
  omega

/-! ## Plain powers -/

section Pow

variable {b : ℤ} {k j : ℕ} {i e : Int64}

/-- The variables after some rounds. -/
def powState (b : ℤ) (k j : ℕ) : ℤ × ℤ × ℤ := (b ^ 2 ^ j, ((k / 2 ^ j : ℕ) : ℤ), b ^ (k % 2 ^ j))

/-- What a round with a digit left computes. -/
theorem powTurn_eq (h : 2 ^ j ≤ k) : powTurn (powState b k j) = (do
    let r ← if k / 2 ^ j % 2 = 1 then signed (b ^ (k % 2 ^ (j + 1))) else pure (b ^ (k % 2 ^ j))
    let s ← signed (b ^ 2 ^ (j + 1))
    pure (.inl (s, ((k / 2 ^ (j + 1) : ℕ) : ℤ), r))) := by
  have hpos : 0 < k / 2 ^ j := Nat.div_pos h (Nat.two_pow_pos j)
  have hsquare : b ^ 2 ^ j * b ^ 2 ^ j = b ^ 2 ^ (j + 1) := by rw [← pow_add, pow_succ, mul_two]
  have hhalf : ((k / 2 ^ j : ℕ) : ℤ) >>> (1 : ℕ) = ((k / 2 ^ (j + 1) : ℕ) : ℤ) := by
    rw [Int.shiftRight_eq_div_pow, pow_succ 2 j, ← Nat.div_div_eq_div_mul]
    rfl
  unfold powTurn powState
  dsimp only
  rw [if_pos (by omega), hsquare, hhalf]
  by_cases hodd : k / 2 ^ j % 2 = 1
  · have hprod : b ^ (k % 2 ^ j) * b ^ 2 ^ j = b ^ (k % 2 ^ (j + 1)) := by
      rw [Nat.mod_pow_succ, hodd, Nat.mul_one, pow_add]
    rw [if_pos (by omega), if_pos hodd, hprod]
  · rw [if_neg (by omega), if_neg hodd]

/-- A digit that is zero leaves the result. -/
theorem mod_pow_of_even (h : ¬ k / 2 ^ j % 2 = 1) : k % 2 ^ (j + 1) = k % 2 ^ j := by
  rw [Nat.mod_pow_succ, show k / 2 ^ j % 2 = 0 by omega, Nat.mul_zero, Nat.add_zero]

/-- A round whose square is in `int64_t`. -/
theorem powTurn_done (h : 2 ^ j ≤ k)
    (hr : -2 ^ 63 ≤ b ^ (k % 2 ^ (j + 1)) ∧ b ^ (k % 2 ^ (j + 1)) < 2 ^ 63)
    (hs : -2 ^ 63 ≤ b ^ 2 ^ (j + 1) ∧ b ^ 2 ^ (j + 1) < 2 ^ 63) :
    powTurn (powState b k j) = .done (.inl (powState b k (j + 1))) := by
  rw [powTurn_eq h, signed_of_range hs.1 hs.2, signed_of_range hr.1 hr.2]
  by_cases hodd : k / 2 ^ j % 2 = 1
  · rw [if_pos hodd]
    rfl
  · rw [if_neg hodd, powState, mod_pow_of_even hodd]
    rfl

/-- Every round goes on to the next one or gets stuck; the last one gets stuck if its square
is not in `int64_t`. -/
theorem powTurn_cases (h : 2 ^ j ≤ k) :
    powTurn (powState b k j) = .stuck ∨
      b ^ 2 ^ (j + 1) < 2 ^ 63 ∧
        powTurn (powState b k j) = .done (.inl (powState b k (j + 1))) := by
  by_cases hs : -2 ^ 63 ≤ b ^ 2 ^ (j + 1) ∧ b ^ 2 ^ (j + 1) < 2 ^ 63
  · by_cases hr : -2 ^ 63 ≤ b ^ (k % 2 ^ (j + 1)) ∧ b ^ (k % 2 ^ (j + 1)) < 2 ^ 63
    · exact Or.inr ⟨hs.2, powTurn_done h hr hs⟩
    · rw [powTurn_eq h]
      by_cases hodd : k / 2 ^ j % 2 = 1
      · rw [if_pos hodd, signed_of_not_range hr]
        exact Or.inl rfl
      · rw [if_neg hodd, signed_of_range hs.1 hs.2, powState, mod_pow_of_even hodd]
        exact Or.inr ⟨hs.2, rfl⟩
  · left
    rw [powTurn_eq h, signed_of_not_range hs]
    by_cases hodd : k / 2 ^ j % 2 = 1
    · rw [if_pos hodd]
      by_cases hr : -2 ^ 63 ≤ b ^ (k % 2 ^ (j + 1)) ∧ b ^ (k % 2 ^ (j + 1)) < 2 ^ 63
      · rw [signed_of_range hr.1 hr.2]
        rfl
      · rw [signed_of_not_range hr]
        rfl
    · rw [if_neg hodd]
      rfl

/-- The square of the last round is in `int64_t`. -/
def LastSquareFits (b e : Int64) : Prop :=
  e.toInt = 0 ∨ b.toInt ^ 2 ^ (Nat.log 2 e.toInt.toNat + 1) < 2 ^ 63

/-- A square is not negative. -/
theorem even_power_nonneg (b : ℤ) (j : ℕ) : 0 ≤ b ^ 2 ^ (j + 1) := by
  rw [pow_succ, pow_mul]
  exact sq_nonneg _

theorem pow_done (he : e.toInt = k) (h : LastSquareFits i e) :
    i64Pow i e = .done (i.toInt ^ k) := by
  unfold i64Pow
  unfold LastSquareFits at h
  rw [he] at h ⊢
  rw [if_neg (by omega)]
  by_cases h0 : k = 0
  · subst h0
    exact congrArg Outcome.done (pow_zero i.toInt).symm
  · rw [Int.toNat_natCast] at h
    have hlast : i.toInt ^ 2 ^ (Nat.log 2 k + 1) < 2 ^ 63 := h.resolve_left (by omega)
    have hbits : k < 2 ^ (Nat.log 2 k + 1) := Nat.lt_pow_succ_log_self Nat.one_lt_two k
    have hfuel : Nat.log 2 k + 1 < k + 1 := Nat.succ_lt_succ (Nat.log_lt_self 2 h0)
    have hfits : ∀ l, l ≤ 2 ^ (Nat.log 2 k + 1) → -2 ^ 63 ≤ i.toInt ^ l ∧ i.toInt ^ l < 2 ^ 63 :=
      fun l hl => fits_pow hl hlast (even_power_nonneg _ _)
    have hstart : (i.toInt, (k : ℤ), (1 : ℤ)) = powState i.toInt k 0 := by
      rw [powState, pow_zero, pow_one, Nat.div_one, Nat.mod_one, pow_zero]
    rw [hstart, Int.toNat_natCast]
    apply Outcome.loop_of_path (powState i.toInt k) hfuel
    · intro j hj
      have hle : 2 ^ (j + 1) ≤ 2 ^ (Nat.log 2 k + 1) :=
        Nat.pow_le_pow_right (by decide) (by omega)
      have hdigit : 2 ^ j ≤ k := Nat.pow_le_of_le_log h0 (by omega)
      have hmod := Nat.mod_le k (2 ^ (j + 1))
      exact powTurn_done hdigit (hfits _ (by omega)) (hfits _ hle)
    · unfold powTurn powState
      dsimp only
      rw [Nat.div_eq_of_lt hbits, Nat.mod_eq_of_lt hbits]
      rfl

theorem pow_stuck (he : e.toInt = k) (h : ¬ LastSquareFits i e) : i64Pow i e = .stuck := by
  unfold i64Pow
  unfold LastSquareFits at h
  rw [he, Int.toNat_natCast] at h
  have h0 : k ≠ 0 := by omega
  rw [he, if_neg (by omega)]
  have hstart : (i.toInt, (k : ℤ), (1 : ℤ)) = powState i.toInt k 0 := by
    rw [powState, pow_zero, pow_one, Nat.div_one, Nat.mod_one, pow_zero]
  rw [hstart, Int.toNat_natCast]
  apply Outcome.loop_of_stuck (fun s => ∃ j, j ≤ Nat.log 2 k ∧ s = powState i.toInt k j)
    ⟨0, Nat.zero_le _, rfl⟩
  rintro s ⟨j, hj, rfl⟩
  rcases powTurn_cases (b := i.toInt) (Nat.pow_le_of_le_log h0 hj) with hstuck | ⟨hfits, hgo⟩
  · exact Or.inl hstuck
  · have hlt : j < Nat.log 2 k := by
      apply lt_of_le_of_ne hj
      rintro rfl
      exact h (Or.inr hfits)
    exact Or.inr ⟨_, hgo, j + 1, hlt, rfl⟩

end Pow

/-! ## Powers modulo a number -/

section PowMod

variable {m a r : ℤ} {k : ℕ} {i e n : Int64}

/-- A remainder of a number that is not negative. -/
theorem remainder_emod {x : ℤ} (h0 : 0 ≤ x) (hlt : x < 2 ^ 63) (hm : 0 < m) :
    remainderOf x m = .done (x % m) := by
  have hdiv : Divides x m := ⟨by omega, by omega, by omega⟩
  rw [hdiv.remainder_done, Int.tmod_eq_emod_of_nonneg h0]

/-- A number is brought among the residues. -/
theorem residue_done {x : ℤ} (hlo : -2 ^ 63 ≤ x) (hhi : x < 2 ^ 63) (hm : 0 < m)
    (hsum : x.tmod m + m < 2 ^ 63) : residueOf x m = .done (x % m) := by
  have hdiv : Divides x m := ⟨⟨hlo, hhi⟩, by omega, by omega⟩
  obtain ⟨hsize, -, -⟩ := tmod_signs (a := x) (show m ≠ 0 by omega)
  unfold residueOf
  rw [hdiv.remainder_done, Outcome.done_bind, signed_of_range (by omega) hsum, Outcome.done_bind,
    remainder_emod (by omega) hsum hm, Int.add_emod_right]
  congr 1
  have hmod := Int.mul_tdiv_add_tmod x m
  rw [← Int.emod_emod_of_dvd (x.tmod m) (dvd_refl m)]
  conv_rhs => rw [← hmod, Int.mul_add_emod_self_left]
  rw [Int.emod_emod_of_dvd _ (dvd_refl m)]

/-- The product of two residues. -/
theorem product_done {x y : ℤ} (hsq : (m - 1) ^ 2 < 2 ^ 63) (hx : 0 ≤ x ∧ x < m)
    (hy : 0 ≤ y ∧ y < m) :
    signed (x * y) = .done (x * y) ∧ remainderOf (x * y) m = .done (x * y % m) := by
  have h0 : 0 ≤ x * y := mul_nonneg hx.1 hy.1
  have hle : x * y ≤ (m - 1) ^ 2 := by
    rw [pow_two]
    exact mul_le_mul (by omega) (by omega) hy.1 (by omega)
  have hlt : x * y < 2 ^ 63 := hle.trans_lt hsq
  exact ⟨signed_of_bounds h0 hlt, remainder_emod h0 hlt (by omega)⟩

/-- A round of `pow_mod` keeps the power that is left to compute. -/
structure Reducing (m t : ℤ) (s : ℤ × ℤ × ℤ) (k : ℕ) : Prop where
  exponent : s.2.1 = k
  base : 0 ≤ s.1 ∧ s.1 < m
  result : 0 ≤ s.2.2 ∧ s.2.2 < m
  power : s.2.2 * s.1 ^ k ≡ t [ZMOD m]

theorem powModTurn_done {t : ℤ} {s : ℤ × ℤ × ℤ} (hm : 1 < m) (hsq : (m - 1) ^ 2 < 2 ^ 63)
    (h : Reducing m t s k) (hk : 0 < k) :
    ∃ s', powModTurn m s = .done (.inl s') ∧ Reducing m t s' (k / 2) := by
  obtain ⟨a, x, r⟩ := s
  obtain ⟨hx, ha, hr, hpow⟩ := h
  dsimp only at hx ha hr hpow
  subst hx
  obtain ⟨hsquare, hsquareMod⟩ := product_done hsq ha ha
  obtain ⟨hprod, hprodMod⟩ := product_done hsq hr ha
  have hhalf : ((k : ℕ) : ℤ) >>> (1 : ℕ) = ((k / 2 : ℕ) : ℤ) := by
    rw [Int.shiftRight_eq_div_pow]
    rfl
  have hbase : 0 ≤ a * a % m ∧ a * a % m < m :=
    ⟨Int.emod_nonneg _ (by omega), Int.emod_lt_of_pos _ (by omega)⟩
  have hsplit : r * a ^ (k % 2) * (a * a % m) ^ (k / 2) ≡ t [ZMOD m] := by
    refine Int.ModEq.trans ?_ hpow
    rw [pow_halves a k, ← mul_assoc]
    exact Int.ModEq.mul_left _ ((Int.mod_modEq _ m).pow _)
  unfold powModTurn
  dsimp only
  rw [if_pos (by omega), hhalf, hsquare]
  by_cases hodd : k % 2 = 1
  · rw [if_pos (by omega), hprod, Outcome.done_bind, hprodMod, Outcome.done_bind,
      Outcome.done_bind, hsquareMod]
    refine ⟨_, rfl, rfl, hbase, ⟨Int.emod_nonneg _ (by omega), Int.emod_lt_of_pos _ (by omega)⟩,
      ?_⟩
    rw [hodd, pow_one] at hsplit
    exact ((Int.mod_modEq _ m).mul_right _).trans hsplit
  · rw [if_neg (by omega), Outcome.pure_eq, Outcome.done_bind, Outcome.done_bind, hsquareMod]
    refine ⟨_, rfl, rfl, hbase, hr, ?_⟩
    rw [show k % 2 = 0 by omega, pow_zero, mul_one] at hsplit
    exact hsplit

theorem powMod_done (he : e.toInt = k) (hm : 1 < n.toInt) (hsq : (n.toInt - 1) ^ 2 < 2 ^ 63) :
    ∃ r, i64PowMod i e n = .done r ∧ 0 ≤ r ∧ r < n.toInt ∧ r ≡ i.toInt ^ k [ZMOD n.toInt] := by
  have hi := toInt_range i
  obtain ⟨hsize, -, -⟩ := tmod_signs (a := i.toInt) (show n.toInt ≠ 0 by omega)
  have hsmall : n.toInt < 2 ^ 62 := by
    apply Classical.byContradiction
    intro hbig
    have hle : (2 ^ 62 - 1) ^ 2 ≤ (n.toInt - 1) ^ 2 := pow_le_pow_left₀ (by decide) (by omega) 2
    exact absurd (hle.trans_lt hsq) (by decide)
  unfold i64PowMod
  rw [he, if_neg (by omega), residue_done hi.1 hi.2 (by omega) (by omega), Outcome.done_bind,
    Int.toNat_natCast]
  have hstart : Reducing n.toInt (i.toInt ^ k) (i.toInt % n.toInt, (k : ℤ), 1) k := by
    refine ⟨rfl, ⟨Int.emod_nonneg _ (by omega), Int.emod_lt_of_pos _ (by omega)⟩,
      ⟨Int.one_nonneg, hm⟩, ?_⟩
    rw [one_mul]
    exact (Int.mod_modEq _ _).pow k
  apply Outcome.loop_of_measure (fun s => ∃ l, Reducing n.toInt (i.toInt ^ k) s l)
    (fun s => s.2.1.toNat) (Nat.lt_succ_self _) ⟨k, hstart⟩
  rintro s ⟨l, hl⟩
  by_cases hpos : 0 < l
  · obtain ⟨s', hs', hnext⟩ := powModTurn_done hm hsq hl hpos
    refine Or.inl ⟨s', hs', ⟨_, hnext⟩, ?_⟩
    rw [hnext.exponent, hl.exponent, Int.toNat_natCast, Int.toNat_natCast]
    omega
  · obtain ⟨a, x, r⟩ := s
    obtain ⟨hx, -, hr, hpow⟩ := hl
    dsimp only at hx hr hpow
    refine Or.inr ⟨r, ?_, hr.1, hr.2, ?_⟩
    · unfold powModTurn
      dsimp only
      rw [if_neg (by omega)]
      rfl
    · rw [show l = 0 by omega, pow_zero, mul_one] at hpow
      exact hpow

end PowMod

/-- `pow` gives the power. -/
def PowExact (b e : Int64) : Prop := i64Pow b e = .done (b.toInt ^ e.toInt.toNat)

/-- `pow_mod` gives the residue of the power. -/
def PowModExact (a e m : Int64) : Prop :=
  ∃ r, i64PowMod a e m = .done r ∧ 0 ≤ r ∧ r < m.toInt ∧
    r ≡ a.toInt ^ e.toInt.toNat [ZMOD m.toInt]

/-- The powers are right exactly where the last square of `pow` is in `int64_t`. -/
theorem powers_iff (b e a f m : Int64) (he : 0 ≤ e.toInt) (hm : 1 < m.toInt)
    (hsq : (m.toInt - 1) ^ 2 < 2 ^ 63) (hf : 0 ≤ f.toInt) :
    PowExact b e ∧ PowModExact a f m ↔ LastSquareFits b e := by
  have hek : e.toInt = e.toInt.toNat := (Int.toNat_of_nonneg he).symm
  have hfk : f.toInt = f.toInt.toNat := (Int.toNat_of_nonneg hf).symm
  constructor
  · rintro ⟨hpow, -⟩
    apply Classical.byContradiction
    intro hover
    unfold PowExact at hpow
    rw [pow_stuck hek hover] at hpow
    cases hpow
  · intro h
    exact ⟨pow_done hek h, powMod_done hfk hm hsq⟩

/-- `3 ^ 4`, and `(-2) ^ 10` modulo seven. -/
theorem powers_three : 0 ≤ (4 : Int64).toInt ∧ 1 < (7 : Int64).toInt ∧
    ((7 : Int64).toInt - 1) ^ 2 < 2 ^ 63 ∧ 0 ≤ (10 : Int64).toInt ∧
    (PowExact 3 4 ∧ PowModExact (-2) 10 7 ↔ LastSquareFits 3 4) :=
  ⟨by decide, by decide, by decide, by decide,
    powers_iff 3 4 (-2) 10 7 (by decide) (by decide) (by decide) (by decide)⟩

/-- `2 ^ 32` squares its base to `2 ^ 64`. -/
theorem pow_inexact : ¬ ∀ b e a f m : Int64, 0 ≤ e.toInt →
    cLong.Fits (b.toInt ^ e.toInt.toNat) → 1 < m.toInt → (m.toInt - 1) ^ 2 < 2 ^ 63 →
    0 ≤ f.toInt → PowExact b e ∧ PowModExact a f m := by
  intro h
  obtain ⟨hpow, -⟩ := h 2 32 0 0 2 (by decide) (by decide) (by decide) (by decide) (by decide)
  have hstuck : i64Pow 2 32 = .stuck := by decide
  unfold PowExact at hpow
  rw [hstuck] at hpow
  cases hpow

end Vani.Analysis
