import Mathlib.Data.Nat.Choose.Basic
import Mathlib.Logic.Relation
import Vani.Analysis.Powers

/-!
# Binomial coefficients and permutations

The loop for binomial coefficients multiplies and divides in turn, so that after every turn it
has a binomial coefficient again and every division leaves no rest. A product that `int64_t`
does not have ends both loops with the greatest number.
-/

set_option autoImplicit false

namespace Vani.Analysis

open Vani.Library Vani.Backend
open Vec (signed)

theorem fits_natCast {k : ℕ} : cLong.Fits (k : ℤ) ↔ k < 2 ^ 63 := by
  have hlong : cLong.lo = -2 ^ 63 ∧ cLong.hi = 2 ^ 63 - 1 := ⟨rfl, rfl⟩
  unfold IntType.Fits
  omega

/-! ## Binomial coefficients -/

section Binomial

variable {n k i : ℕ} {a b : Int64}

/-- The product of a turn, before it is divided. -/
theorem choose_turn (n i : ℕ) : n.choose (i + 1) * (i + 1) = n.choose i * (n - i) :=
  Nat.choose_succ_right_eq n i

/-- The variables before the turn `i`. -/
def binomialState (n i : ℕ) : ℤ × ℤ := (((i + 1 : ℕ) : ℤ), (n.choose i : ℤ))

/-- The factor of the turn. -/
theorem factor_done (hi : i < n) (hn : n < 2 ^ 63) :
    signed ((n : ℤ) - ((i + 1 : ℕ) : ℤ)) = .done ((n - (i + 1) : ℕ) : ℤ) ∧
      signed (((n - (i + 1) : ℕ) : ℤ) + 1) = .done ((n - i : ℕ) : ℤ) := by
  constructor
  · rw [signed_of_range (by omega) (by omega)]
    congr 1
    omega
  · rw [signed_of_range (by omega) (by omega)]
    congr 1
    omega

/-- A turn whose product is in `int64_t` divides it without a rest. -/
theorem binomialTurn_done (hk : i < k) (hkn : 2 * k ≤ n) (hn : n < 2 ^ 63)
    (hfits : n.choose i * (n - i) < 2 ^ 63) :
    binomialTurn n k (binomialState n i) = .done (.inl (binomialState n (i + 1))) := by
  obtain ⟨hsub, hadd⟩ := factor_done (show i < n by omega) hn
  have hdiv : quotient ((n.choose i * (n - i) : ℕ) : ℤ) ((i + 1 : ℕ) : ℤ) =
      .done (n.choose (i + 1) : ℤ) := by
    rw [quotient_of_pos (Nat.succ_pos i) hfits, ← choose_turn, Nat.mul_div_cancel _
      (Nat.succ_pos i)]
  have hnext : signed (((i + 1 : ℕ) : ℤ) + 1) = .done ((i + 1 + 1 : ℕ) : ℤ) := by
    exact_mod_cast signed_natCast (k := i + 1 + 1) (by omega)
  unfold binomialTurn binomialState
  dsimp only
  rw [if_pos (by omega), hsub, Outcome.done_bind, hadd, Outcome.done_bind, ← Int.natCast_mul,
    if_pos (fits_natCast.mpr hfits), hdiv, Outcome.done_bind, hnext]
  rfl

theorem binomialTurn_over (hk : i < k) (hkn : 2 * k ≤ n) (hn : n < 2 ^ 63)
    (hover : ¬ n.choose i * (n - i) < 2 ^ 63) :
    binomialTurn n k (binomialState n i) = .done (.inr int64Max) := by
  obtain ⟨hsub, hadd⟩ := factor_done (show i < n by omega) hn
  have hnext : signed (((i + 1 : ℕ) : ℤ) + 1) = .done ((i + 1 + 1 : ℕ) : ℤ) := by
    exact_mod_cast signed_natCast (k := i + 1 + 1) (by omega)
  unfold binomialTurn binomialState
  dsimp only
  rw [if_pos (by omega), hsub, Outcome.done_bind, hadd, Outcome.done_bind, ← Int.natCast_mul,
    if_neg fun h => hover (fits_natCast.mp h), hnext]
  rfl

theorem binomialTurn_end :
    binomialTurn n k (binomialState n k) = .done (.inr (n.choose k : ℤ)) := by
  unfold binomialTurn binomialState
  dsimp only
  rw [if_neg (by omega)]
  rfl

/-- Every product up to the turn `k` is in `int64_t`. -/
def ProductsFit (n k : ℕ) : Prop := ∀ i < k, n.choose i * (n - i) < 2 ^ 63

/-- The loop ends with the coefficient, or with the greatest number after a product that is not
in `int64_t`. -/
theorem binomialLoop_done (hkn : 2 * k ≤ n) (hn : n < 2 ^ 63) {fuel : ℕ} (hfuel : k < fuel) :
    ∃ r, Outcome.loop (binomialTurn n k) fuel (binomialState n 0) = .done r ∧
      (r = n.choose k ∨ r = int64Max ∧ ¬ ProductsFit n k) := by
  apply Outcome.loop_of_measure (fun s => ∃ i, i ≤ k ∧ s = binomialState n i)
    (fun s => k + 1 - s.1.toNat) ?_ ⟨0, Nat.zero_le k, rfl⟩
  · rintro s ⟨i, hi, rfl⟩
    rcases hi.eq_or_lt with rfl | hlt
    · exact Or.inr ⟨_, binomialTurn_end, Or.inl rfl⟩
    · by_cases hfits : n.choose i * (n - i) < 2 ^ 63
      · refine Or.inl ⟨_, binomialTurn_done hlt hkn hn hfits, ⟨i + 1, hlt, rfl⟩, ?_⟩
        simp only [binomialState, Int.toNat_natCast]
        omega
      · exact Or.inr ⟨_, binomialTurn_over hlt hkn hn hfits,
          Or.inr ⟨rfl, fun h => hfits (h i hlt)⟩⟩
  · simp only [binomialState, Int.toNat_natCast]
    omega

/-- The states that the loop goes through. -/
def ProductReaches (n k : ℤ) (s : ℤ × ℤ) : Prop :=
  Relation.ReflTransGen (fun s s' => binomialTurn n k s = .done (.inl s')) (1, 1) s

/-- The loop only goes through states with a binomial coefficient. -/
theorem state_of_productReaches (hkn : 2 * k ≤ n) (hn : n < 2 ^ 63) {s : ℤ × ℤ} (h : ProductReaches n k s) :
    ∃ i, i ≤ k ∧ s = binomialState n i := by
  induction h with
  | refl => exact ⟨0, Nat.zero_le k, by rw [binomialState, Nat.choose_zero_right]; rfl⟩
  | tail _ hstep ih =>
    obtain ⟨i, hi, rfl⟩ := ih
    rcases hi.eq_or_lt with rfl | hlt
    · rw [binomialTurn_end] at hstep
      cases hstep
    · by_cases hfits : n.choose i * (n - i) < 2 ^ 63
      · rw [binomialTurn_done hlt hkn hn hfits] at hstep
        cases hstep
        exact ⟨i + 1, hlt, rfl⟩
      · rw [binomialTurn_over hlt hkn hn hfits] at hstep
        cases hstep

end Binomial

/-- `binomial` gives the coefficient or the greatest number, the coefficient whenever the
products fit, and divides without a rest. -/
structure BinomialExact (a b : Int64) : Prop where
  result : i64Binomial a b = .done (a.toInt.toNat.choose b.toInt.toNat : ℤ) ∨
    i64Binomial a b = .done int64Max
  exact : (∀ i : ℕ, 1 ≤ i → (i : ℤ) ≤ min b.toInt (a.toInt - b.toInt) →
      (a.toInt.toNat.choose (i - 1) : ℤ) * (a.toInt - i + 1) < 2 ^ 63) →
    i64Binomial a b = .done (a.toInt.toNat.choose b.toInt.toNat : ℤ)
  divisions : ∀ s, ProductReaches a.toInt (min b.toInt (a.toInt - b.toInt)) s →
    s.1 ≤ min b.toInt (a.toInt - b.toInt) → s.1 ∣ s.2 * (a.toInt - s.1 + 1)

theorem binomial_exact {a b : Int64} (hb : 0 ≤ b.toInt) (hba : b.toInt ≤ a.toInt) :
    BinomialExact a b := by
  obtain ⟨k, hk⟩ : ∃ k : ℕ, b.toInt = k := ⟨b.toInt.toNat, by omega⟩
  obtain ⟨n, hn⟩ : ∃ n : ℕ, a.toInt = n := ⟨a.toInt.toNat, by omega⟩
  have hlt := (toInt_range a).2
  have hle : k ≤ n := by omega
  have hmin : min (k : ℤ) ((n : ℤ) - k) = ((min k (n - k) : ℕ) : ℤ) := by omega
  have hchoose : n.choose (min k (n - k)) = n.choose k := by
    rcases min_choice k (n - k) with h | h
    · rw [h]
    · rw [h, Nat.choose_symm hle]
  have hrun : ∃ r, i64Binomial a b = .done r ∧
      (r = n.choose k ∨ r = int64Max ∧ ¬ ProductsFit n (min k (n - k))) := by
    unfold i64Binomial
    rw [hk, hn, if_neg (by omega)]
    by_cases hedge : (k : ℤ) = 0 ∨ (k : ℤ) = n
    · rw [if_pos hedge]
      refine ⟨1, rfl, Or.inl ?_⟩
      rcases (show k = 0 ∨ k = n by omega) with rfl | rfl
      · rw [Nat.choose_zero_right]
        rfl
      · rw [Nat.choose_self]
        rfl
    · have hsym : (if (k : ℤ) > (n : ℤ) - k then (n : ℤ) - k else k) =
          ((min k (n - k) : ℕ) : ℤ) := by
        rw [← hmin]
        split <;> omega
      have hstart : binomialState n 0 = (1, 1) := by
        rw [binomialState, Nat.choose_zero_right]
        rfl
      rw [if_neg hedge, signed_of_range (by omega) (by omega), Outcome.done_bind]
      dsimp only
      rw [hsym, ← hchoose, ← hstart, Int.toNat_natCast]
      exact binomialLoop_done (by omega) (by omega) (Nat.lt_succ_self _)
  obtain ⟨r, hr, hcases⟩ := hrun
  have hto : a.toInt.toNat = n ∧ b.toInt.toNat = k := by omega
  rw [← hto.1, ← hto.2] at hcases
  constructor
  · rw [hr]
    exact hcases.imp (congrArg _) fun h => congrArg _ h.1
  · intro hfits
    rw [hr]
    rcases hcases with h | ⟨-, hover⟩
    · exact congrArg _ h
    · exfalso
      apply hover
      intro i hi
      have hterm := hfits (i + 1) (by omega) (by omega)
      rw [hto.1, Nat.add_sub_cancel, hn] at hterm
      rw [hto.1, hto.2] at hi
      rw [hto.1]
      have hcast : ((n.choose i * (n - i) : ℕ) : ℤ) =
          (n.choose i : ℤ) * ((n : ℤ) - ((i + 1 : ℕ) : ℤ) + 1) := by
        rw [Int.natCast_mul, show ((n - i : ℕ) : ℤ) = (n : ℤ) - ((i + 1 : ℕ) : ℤ) + 1 by omega]
      omega
  · intro s hs hturn
    rw [hn, hk, hmin] at hs hturn
    rw [hn]
    obtain ⟨i, hi, rfl⟩ := state_of_productReaches (by omega) (by omega) hs
    have hi' : i < n := by
      have hlt' : ((i + 1 : ℕ) : ℤ) ≤ ((min k (n - k) : ℕ) : ℤ) := hturn
      omega
    show ((i + 1 : ℕ) : ℤ) ∣ (n.choose i : ℤ) * ((n : ℤ) - ((i + 1 : ℕ) : ℤ) + 1)
    rw [show (n : ℤ) - ((i + 1 : ℕ) : ℤ) + 1 = ((n - i : ℕ) : ℤ) by omega, ← Int.natCast_mul,
      ← choose_turn]
    exact Int.natCast_dvd_natCast.mpr (Nat.dvd_mul_left _ _)

/-! ## Permutations -/

section Perm

variable {n k i : ℕ}

/-- The variables before a turn. -/
def permState (n i : ℕ) : ℤ × ℤ := ((i : ℤ), (n.descFactorial i : ℤ))

theorem permTurn_eq (hk : i < k) (hkn : k ≤ n) (hn : n < 2 ^ 63) :
    permTurn n k (permState n i) = if n.descFactorial (i + 1) < 2 ^ 63
      then .done (.inl (permState n (i + 1))) else .done (.inr int64Max) := by
  have hsub : signed ((n : ℤ) - (i : ℤ)) = .done ((n - i : ℕ) : ℤ) := by
    rw [signed_of_range (by omega) (by omega)]
    congr 1
    omega
  have hnext : signed ((i : ℤ) + 1) = .done ((i + 1 : ℕ) : ℤ) := by
    exact_mod_cast signed_natCast (k := i + 1) (by omega)
  have hprod : (n.descFactorial i : ℤ) * ((n - i : ℕ) : ℤ) = (n.descFactorial (i + 1) : ℤ) := by
    rw [Nat.descFactorial_succ, mul_comm, ← Int.natCast_mul]
  unfold permTurn permState
  dsimp only
  rw [if_pos (by omega), hsub, Outcome.done_bind, hnext, Outcome.done_bind, hprod]
  by_cases hfits : n.descFactorial (i + 1) < 2 ^ 63
  · rw [if_pos (fits_natCast.mpr hfits), if_pos hfits]
    rfl
  · rw [if_neg fun h => hfits (fits_natCast.mp h), if_neg hfits]
    rfl

/-- Products of positive factors grow. -/
theorem descFactorial_le (hi : i ≤ k) (hkn : k ≤ n) : n.descFactorial i ≤ n.descFactorial k := by
  induction k, hi using Nat.le_induction with
  | base => exact le_rfl
  | succ k _ ih =>
    rw [Nat.descFactorial_succ]
    exact (ih (by omega)).trans (Nat.le_mul_of_pos_left _ (by omega))

theorem permLoop_done (hkn : k ≤ n) (hn : n < 2 ^ 63) {fuel : ℕ} (hfuel : k < fuel) :
    ∃ r, Outcome.loop (permTurn n k) fuel (permState n 0) = .done r ∧
      r = if n.descFactorial k < 2 ^ 63 then (n.descFactorial k : ℤ) else int64Max := by
  apply Outcome.loop_of_measure
    (fun s => ∃ i, i ≤ k ∧ (i = 0 ∨ n.descFactorial i < 2 ^ 63) ∧ s = permState n i)
    (fun s => k - s.1.toNat) ?_ ⟨0, Nat.zero_le k, Or.inl rfl, rfl⟩
  · rintro s ⟨i, hi, hbelow, rfl⟩
    rcases hi.eq_or_lt with rfl | hlt
    · refine Or.inr ⟨n.descFactorial i, ?_, ?_⟩
      · unfold permTurn permState
        dsimp only
        rw [if_neg (by omega)]
        rfl
      · rw [if_pos]
        rcases hbelow with rfl | hbelow
        · rw [Nat.descFactorial_zero]
          decide
        · exact hbelow
    · rw [permTurn_eq hlt hkn hn]
      by_cases hfits : n.descFactorial (i + 1) < 2 ^ 63
      · rw [if_pos hfits]
        refine Or.inl ⟨_, rfl, ⟨i + 1, hlt, Or.inr hfits, rfl⟩, ?_⟩
        simp only [permState, Int.toNat_natCast]
        omega
      · rw [if_neg hfits]
        refine Or.inr ⟨_, rfl, ?_⟩
        have hgrow := descFactorial_le (n := n) (show i + 1 ≤ k from hlt) hkn
        rw [if_neg (by omega)]
  · simp only [permState, Int.toNat_natCast]
    omega

end Perm

/-- `perm` gives the number of permutations, or the greatest number where it does not fit. -/
structure PermExact (a b : Int64) : Prop where
  fits : a.toInt.toNat.factorial / (a.toInt - b.toInt).toNat.factorial < 2 ^ 63 →
    i64Perm a b =
      .done ((a.toInt.toNat.factorial / (a.toInt - b.toInt).toNat.factorial : ℕ) : ℤ)
  saturates : ¬ a.toInt.toNat.factorial / (a.toInt - b.toInt).toNat.factorial < 2 ^ 63 →
    i64Perm a b = .done int64Max

theorem perm_exact {a b : Int64} (hb : 0 ≤ b.toInt) (hba : b.toInt ≤ a.toInt) : PermExact a b := by
  obtain ⟨k, hk⟩ : ∃ k : ℕ, b.toInt = k := ⟨b.toInt.toNat, by omega⟩
  obtain ⟨n, hn⟩ : ∃ n : ℕ, a.toInt = n := ⟨a.toInt.toNat, by omega⟩
  have hlt := (toInt_range a).2
  have hle : k ≤ n := by omega
  have hquot : a.toInt.toNat.factorial / (a.toInt - b.toInt).toNat.factorial =
      n.descFactorial k := by
    rw [Nat.descFactorial_eq_div hle, hn, hk, Int.toNat_natCast,
      show ((n : ℤ) - k).toNat = n - k by omega]
  have hrun : i64Perm a b =
      .done (if n.descFactorial k < 2 ^ 63 then (n.descFactorial k : ℤ) else int64Max) := by
    unfold i64Perm
    rw [hk, hn, if_neg (by omega)]
    by_cases h0 : k = 0
    · subst h0
      rw [if_pos (by decide), Nat.descFactorial_zero, if_pos (by decide)]
      rfl
    · rw [if_neg (by omega), Int.toNat_natCast]
      obtain ⟨r, hr, rfl⟩ := permLoop_done hle (by omega) (Nat.lt_succ_self k)
      exact hr
  constructor
  · intro hfits
    rw [hquot] at hfits ⊢
    rw [hrun, if_pos hfits]
  · intro hover
    rw [hquot] at hover
    rw [hrun, if_neg hover]

/-- `binomial` and `perm` are exact or saturated. -/
theorem counting_exact (n k : Int64) (hk : 0 ≤ k.toInt) (hkn : k.toInt ≤ n.toInt) :
    BinomialExact n k ∧ PermExact n k :=
  ⟨binomial_exact hk hkn, perm_exact hk hkn⟩

/-- Three out of seven. -/
theorem counting_seven : 0 ≤ (3 : Int64).toInt ∧ (3 : Int64).toInt ≤ (7 : Int64).toInt ∧
    BinomialExact 7 3 ∧ PermExact 7 3 :=
  ⟨by decide, by decide, counting_exact 7 3 (by decide) (by decide)⟩

end Vani.Analysis
