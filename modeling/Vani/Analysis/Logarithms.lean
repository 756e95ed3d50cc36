import Mathlib.Data.Nat.Log
import Mathlib.Order.Bounds.Basic
import Vani.Analysis.RoundedDivision

/-!
# Integer logarithms

Logarithms to base two come from the zeros above the highest digit, those to base ten from
loops. The loop for the ceiling multiplies by ten past the argument, so it leaves `int64_t`
from the first argument above the last power of ten; the next power of two leaves it above
`2 ^ 62`.
-/

set_option autoImplicit false

namespace Vani.Analysis

open Vani.Library Vani.Backend
open Vec (signed)

/-- The greatest exponent of a power that is not above the argument. -/
def FloorLog (b : ℕ) (n : ℤ) (x : Outcome ℤ) : Prop :=
  ∃ k : ℕ, x = .done k ∧ IsGreatest {k : ℕ | (b : ℤ) ^ k ≤ n} k

/-- The least exponent of a power that is not below the argument. -/
def CeilLog (b : ℕ) (n : ℤ) (x : Outcome ℤ) : Prop :=
  ∃ k : ℕ, x = .done k ∧ IsLeast {k : ℕ | n ≤ (b : ℤ) ^ k} k

variable {b n : ℕ} {i : Int64} {x : Outcome ℤ}

theorem floorLog_of_log (hb : 1 < b) (hn : 0 < n) (h : x = .done (Nat.log b n : ℤ)) :
    FloorLog b n x := by
  refine ⟨Nat.log b n, h, ?_, ?_⟩
  · have hle := Nat.pow_log_le_self b hn.ne'
    show (b : ℤ) ^ Nat.log b n ≤ n
    exact_mod_cast hle
  · intro k hk
    have hk' : (b : ℤ) ^ k ≤ n := hk
    exact Nat.le_log_of_pow_le hb (by exact_mod_cast hk')

theorem ceilLog_of_clog (hb : 1 < b) (h : x = .done (Nat.clog b n : ℤ)) : CeilLog b n x := by
  refine ⟨Nat.clog b n, h, ?_, ?_⟩
  · have hle := Nat.le_pow_clog hb n
    show (n : ℤ) ≤ (b : ℤ) ^ Nat.clog b n
    exact_mod_cast hle
  · intro k hk
    have hk' : (n : ℤ) ≤ (b : ℤ) ^ k := hk
    exact Nat.clog_le_of_le_pow (by exact_mod_cast hk')

/-! ## Base two -/

theorem clz_done (hn : 0 < n) : clz n = .done (63 - (Nat.log 2 n : ℤ)) := by
  unfold clz
  rw [if_neg (by omega), Int.toNat_natCast, Nat.log2_eq_log_two]
  rfl

/-- The exponent of the next power of two from the digits of the number before. -/
theorem clog_two_eq (h : 2 ≤ n) : Nat.clog 2 n = Nat.log 2 (n - 1) + 1 := by
  apply Nat.le_antisymm
  · apply Nat.clog_le_of_le_pow
    have hlt := Nat.lt_pow_succ_log_self Nat.one_lt_two (n - 1)
    omega
  · have hle := Nat.pow_log_le_self 2 (show n - 1 ≠ 0 by omega)
    exact (Nat.lt_clog_iff_pow_lt Nat.one_lt_two).mpr (by omega)

theorem log2Floor_done (hi : i.toInt = n) (hn : 0 < n) :
    i64Log2Floor i = .done (Nat.log 2 n : ℤ) := by
  unfold i64Log2Floor
  rw [hi, if_neg (by omega), clz_done hn, Outcome.done_bind, Outcome.pure_eq]
  congr 1
  omega

theorem pred_clz (h : 2 ≤ n) : clz ((n : ℤ) - 1) = .done (64 - (Nat.clog 2 n : ℤ)) := by
  rw [clog_two_eq h, show (n : ℤ) - 1 = (n - 1 : ℕ) by omega, clz_done (by omega)]
  congr 1
  omega

theorem log2Ceil_done (hi : i.toInt = n) (hn : 0 < n) :
    i64Log2Ceil i = .done (Nat.clog 2 n : ℤ) := by
  unfold i64Log2Ceil
  rw [hi, if_neg (by omega)]
  by_cases h1 : n = 1
  · subst h1
    rw [if_pos (by decide), Nat.clog_one_right]
    rfl
  · rw [if_neg (by omega), pred_clz (by omega), Outcome.done_bind, Outcome.pure_eq]
    congr 1
    omega

/-- The shift by the exponent of the next power. -/
theorem nextPower_eq (hi : i.toInt = n) (hn : 0 < n) (hlt : n < 2 ^ 63) :
    i64NextPowerOf2 i = signed (2 ^ Nat.clog 2 n) := by
  unfold i64NextPowerOf2
  rw [hi]
  by_cases h1 : n = 1
  · subst h1
    rw [if_pos (by decide), Nat.clog_one_right]
    exact (signed_of_range (by decide) (by decide)).symm
  · have hle : Nat.clog 2 n ≤ 63 := Nat.clog_le_of_le_pow hlt.le
    rw [if_neg (by omega), pred_clz (by omega), Outcome.done_bind, sub_sub_cancel]
    unfold shiftOne
    rw [if_pos (by omega), Int.toNat_natCast]

theorem nextPower_done (hi : i.toInt = n) (hn : 0 < n) (hfits : n ≤ 2 ^ 62) :
    i64NextPowerOf2 i = .done (2 ^ Nat.clog 2 n) := by
  rw [nextPower_eq hi hn (by omega)]
  have hle : Nat.clog 2 n ≤ 62 := Nat.clog_le_of_le_pow hfits
  have hpow : 2 ^ Nat.clog 2 n ≤ 2 ^ 62 := Nat.pow_le_pow_right (by decide) hle
  apply signed_of_bounds (by positivity)
  exact_mod_cast hpow.trans_lt (by decide)

/-- The least power of two that is not below `n`. -/
theorem least_power {p : ℤ} (hp : IsLeast {p : ℤ | (∃ k : ℕ, p = 2 ^ k) ∧ (n : ℤ) ≤ p} p) :
    p = 2 ^ Nat.clog 2 n := by
  obtain ⟨⟨⟨k, rfl⟩, hle⟩, hleast⟩ := hp
  have hmem : (n : ℤ) ≤ 2 ^ Nat.clog 2 n := by
    exact_mod_cast Nat.le_pow_clog Nat.one_lt_two n
  have hk : Nat.clog 2 n ≤ k := Nat.clog_le_of_le_pow (by exact_mod_cast hle)
  apply le_antisymm (hleast ⟨⟨_, rfl⟩, hmem⟩)
  exact_mod_cast Nat.pow_le_pow_right (by decide) hk

/-! ## Base ten -/

/-- The floor counts the divisions by ten. -/
theorem log10Floor_done (hi : i.toInt = n) (hn : 0 < n) (hlt : n < 2 ^ 63) :
    i64Log10Floor i = .done (Nat.log 10 n : ℤ) := by
  unfold i64Log10Floor
  rw [hi, if_neg (by omega)]
  have hloop : ∃ r, Outcome.loop log10FloorTurn ((n : ℤ).toNat + 1) ((n : ℤ), 0) = .done r ∧
      r = Nat.log 10 n := by
    apply Outcome.loop_of_measure
      (fun s => ∃ m c : ℕ, s = ((m : ℤ), (c : ℤ)) ∧ m ≤ n ∧ Nat.log 10 m + c = Nat.log 10 n)
      (fun s => s.1.toNat) (Nat.lt_succ_self _) ⟨n, 0, rfl, le_rfl, rfl⟩
    rintro s ⟨m, c, rfl, hm, hc⟩
    unfold log10FloorTurn
    dsimp only
    by_cases h10 : 10 ≤ m
    · have hlog : Nat.log 10 m = Nat.log 10 (m / 10) + 1 :=
        Nat.log_of_one_lt_of_le (by decide) h10
      have hself := Nat.log_le_self 10 n
      have hq : quotient (m : ℤ) 10 = .done ((m / 10 : ℕ) : ℤ) :=
        quotient_of_pos (b := 10) (by decide) (by omega)
      have hcount : signed ((c : ℤ) + 1) = .done ((c + 1 : ℕ) : ℤ) := by
        exact_mod_cast signed_natCast (k := c + 1) (by omega)
      refine Or.inl ⟨_, ?_, ⟨m / 10, c + 1, rfl, by omega, by omega⟩, ?_⟩
      · rw [if_pos (by omega), hq, Outcome.done_bind, hcount]
        rfl
      · simp only [Int.toNat_natCast]
        omega
    · have hzero : Nat.log 10 m = 0 := Nat.log_of_lt (by omega)
      refine Or.inr ⟨c, ?_, by omega⟩
      rw [if_neg (by omega)]
      rfl
  obtain ⟨r, hrun, rfl⟩ := hloop
  exact hrun

/-- Below the last power of ten the ceiling counts the products that are below the argument. -/
theorem log10Ceil_done (hi : i.toInt = n) (hfits : n ≤ 10 ^ 18) :
    i64Log10Ceil i = .done (Nat.clog 10 n : ℤ) := by
  unfold i64Log10Ceil
  rw [hi]
  by_cases h1 : n ≤ 1
  · rw [if_pos (by omega), Nat.clog_of_right_le_one h1]
    rfl
  · have hle : Nat.clog 10 n ≤ 18 := Nat.clog_le_of_le_pow hfits
    have hfuel : Nat.clog 10 n ≤ n :=
      Nat.clog_le_of_le_pow (Nat.lt_pow_self (by decide)).le
    rw [if_neg (by omega)]
    apply Outcome.loop_of_path (d := Nat.clog 10 n) (fun c => ((10 : ℤ) ^ c, (c : ℤ)))
      (by omega)
    · intro c hc
      have hbelow : 10 ^ c < n := (Nat.lt_clog_iff_pow_lt (by decide)).mp hc
      have hpow : 10 ^ (c + 1) ≤ 10 ^ 18 := Nat.pow_le_pow_right (by decide) (by omega)
      have hprod : signed ((10 : ℤ) ^ c * 10) = .done ((10 : ℤ) ^ (c + 1)) := by
        rw [← pow_succ]
        apply signed_of_bounds (by positivity)
        exact_mod_cast hpow.trans_lt (by decide)
      have hcount : signed ((c : ℤ) + 1) = .done ((c + 1 : ℕ) : ℤ) := by
        exact_mod_cast signed_natCast (k := c + 1) (by omega)
      unfold log10CeilTurn
      dsimp only
      rw [if_pos (by exact_mod_cast hbelow), hprod, Outcome.done_bind, hcount]
      rfl
    · have hend : n ≤ 10 ^ Nat.clog 10 n := Nat.le_pow_clog (by decide) n
      unfold log10CeilTurn
      dsimp only
      rw [if_neg (not_lt.mpr (by exact_mod_cast hend))]
      rfl

/-- Above it, the product after the last power of ten overflows. -/
theorem log10Ceil_stuck (hi : i.toInt = n) (hover : 10 ^ 18 < n) : i64Log10Ceil i = .stuck := by
  unfold i64Log10Ceil
  rw [hi, if_neg (by omega)]
  apply Outcome.loop_of_stuck (fun s => ∃ c : ℕ, c ≤ 18 ∧ s = ((10 : ℤ) ^ c, (c : ℤ)))
    ⟨0, by decide, rfl⟩
  rintro s ⟨c, hc, rfl⟩
  have hpow : 10 ^ c ≤ 10 ^ 18 := Nat.pow_le_pow_right (by decide) hc
  have hbelow : (10 : ℤ) ^ c < n := by exact_mod_cast hpow.trans_lt hover
  unfold log10CeilTurn
  dsimp only
  rw [if_pos hbelow, ← pow_succ]
  by_cases hlast : c = 18
  · subst hlast
    left
    rw [signed_of_not_range (by decide)]
    rfl
  · have hnext : 10 ^ (c + 1) ≤ 10 ^ 18 := Nat.pow_le_pow_right (by decide) (by omega)
    have hlt : (10 : ℤ) ^ (c + 1) < 2 ^ 63 := by exact_mod_cast hnext.trans_lt (by decide)
    have hcount : signed ((c : ℤ) + 1) = .done ((c + 1 : ℕ) : ℤ) := by
      exact_mod_cast signed_natCast (k := c + 1) (by omega)
    right
    refine ⟨_, ?_, c + 1, by omega, rfl⟩
    rw [signed_of_bounds (by positivity) hlt, Outcome.done_bind, hcount]
    rfl

/-! ## All logarithms -/

/-- The logarithms and the next power of two are right and nothing overflows. -/
structure LogsExact (n : Int64) : Prop where
  log2Floor : FloorLog 2 n.toInt (i64Log2Floor n)
  log2Ceil : CeilLog 2 n.toInt (i64Log2Ceil n)
  log10Floor : FloorLog 10 n.toInt (i64Log10Floor n)
  log10Ceil : CeilLog 10 n.toInt (i64Log10Ceil n)
  nextPower : ∀ p : ℤ, IsLeast {p : ℤ | (∃ k : ℕ, p = 2 ^ k) ∧ n.toInt ≤ p} p → p < 2 ^ 63 →
    i64NextPowerOf2 n = .done p
  nextDefined : i64NextPowerOf2 n ≠ .stuck

/-- The logarithms of a positive number are right exactly up to the last power of ten. -/
theorem logsExact_iff (n : Int64) (hpos : 0 < n.toInt) : LogsExact n ↔ n.toInt ≤ 10 ^ 18 := by
  obtain ⟨k, hk⟩ : ∃ k : ℕ, n.toInt = k := ⟨n.toInt.toNat, by omega⟩
  have hlt := (toInt_range n).2
  constructor
  · intro h
    apply Classical.byContradiction
    intro hover
    obtain ⟨r, hrun, -⟩ := h.log10Ceil
    rw [log10Ceil_stuck hk (by omega)] at hrun
    cases hrun
  · intro hle
    have hnext := nextPower_done hk (by omega) (by omega)
    constructor
    · rw [hk]
      exact floorLog_of_log (by decide) (by omega) (log2Floor_done hk (by omega))
    · rw [hk]
      exact ceilLog_of_clog (by decide) (log2Ceil_done hk (by omega))
    · rw [hk]
      exact floorLog_of_log (by decide) (by omega) (log10Floor_done hk (by omega) (by omega))
    · rw [hk]
      exact ceilLog_of_clog (by decide) (log10Ceil_done hk (by omega))
    · intro p hp _
      rw [hk] at hp
      rw [hnext, least_power hp]
    · rw [hnext]
      exact fun hstuck => by cases hstuck

/-- A thousand. -/
theorem logsExact_thousand : 0 < (1000 : Int64).toInt ∧
    (LogsExact 1000 ↔ (1000 : Int64).toInt ≤ 10 ^ 18) :=
  ⟨by decide, logsExact_iff 1000 (by decide)⟩

/-- The logarithms of the greatest number overflow. -/
theorem logs_inexact : ¬ ∀ n : Int64, 0 < n.toInt → LogsExact n := by
  intro h
  obtain ⟨r, hrun, -⟩ := (h greatest (by decide)).log10Ceil
  have hstuck : i64Log10Ceil greatest = .stuck :=
    log10Ceil_stuck (n := 9223372036854775807) (by decide) (by decide)
  rw [hstuck] at hrun
  cases hrun

end Vani.Analysis
