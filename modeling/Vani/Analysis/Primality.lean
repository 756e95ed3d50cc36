import Mathlib.Tactic.NormNum.Prime
import Mathlib.Tactic.ReduceModChar
import Vani.Library.Divisors
import Vani.Analysis.IntegerRoots

/-!
# Exactness of the tests of primality

The trial division squares its candidate before it compares. The greatest candidate with a
square in `int64_t` is 3037000499, and it is on the way of the candidates: a number that is
not below its square and has no factor up to it, that is a prime, brings the division to the
next one, whose square overflows. The searches for a next or a previous prime end at a prime,
so they are exact where that prime is below the bound.
-/

set_option autoImplicit false

namespace Vani.Analysis

open Vani.Library Vani.Backend
open Vec (signed)

variable {n m : Nat}

/-- The square of the greatest candidate whose square `int64_t` has. -/
def lastSquare : Nat := 3037000499 * 3037000499

theorem signed_of_greater {x : Int} (h : 2 ^ 63 ≤ x) : signed x = .stuck := by
  have hlong : cLong.lo = -2 ^ 63 ∧ cLong.hi = 2 ^ 63 - 1 := ⟨rfl, rfl⟩
  unfold signed
  apply if_neg
  unfold IntType.Fits
  omega

theorem remainderOf_of_pos {a b : Nat} (hb : 0 < b) (ha : a < 2 ^ 63) :
    remainderOf a b = .done ((a % b : Nat) : Int) := by
  unfold remainderOf
  rw [quotient_of_pos hb ha, Outcome.done_bind, Int.tmod_eq_emod_of_nonneg (Int.natCast_nonneg a),
    ← Int.natCast_emod]
  rfl

/-! ## Trial division -/

/-- The candidates of the division of `n`. -/
structure Trying (n m : Nat) : Prop where
  five_le : 5 ≤ m
  residue : m % 6 = 5
  rough : Rough m n
  passed : m = 5 ∨ (m - 6) * (m - 6) ≤ n

theorem Trying.lt (h : Trying n m) (hn : n < 2 ^ 63) : m ≤ 3037000505 := by
  by_contra hlt
  rcases h.passed with h5 | hsquare
  · omega
  · have hbig : 3037000500 * 3037000500 ≤ (m - 6) * (m - 6) :=
      Nat.mul_le_mul (by omega) (by omega)
    omega

/-- A divisor between 1 and the number makes it composite. -/
theorem not_prime_of_dvd (hm : 5 ≤ m) (hle : m * m ≤ n) {d : Nat} (hd : m ≤ d) (hd' : d ≤ m + 2)
    (hdvd : d ∣ n) : ¬ n.Prime := by
  have hlt : m + 2 < m * m := by nlinarith only [hm]
  exact Nat.not_prime_of_dvd_of_lt hdvd (by omega) (by omega)

/-- What a test of a number says, for the number: the right answer, or an overflow for a prime
that is not below the last square. -/
inductive Judges (n : Nat) : Outcome Bool → Prop
  | prime : n.Prime → n < lastSquare → Judges n (.done true)
  | composite : ¬ n.Prime → Judges n (.done false)
  | overflow : n.Prime → lastSquare ≤ n → Judges n .stuck

theorem Judges.of_cases {x : Outcome Bool}
    (h : (∃ b, x = .done b ∧ if b then n.Prime ∧ n < lastSquare else ¬ n.Prime) ∨
      x = .stuck ∧ n.Prime ∧ lastSquare ≤ n) : Judges n x := by
  rcases h with ⟨b, rfl, hb⟩ | ⟨rfl, hp, hle⟩
  · cases b with
    | true => exact .prime hb.1 hb.2
    | false => exact .composite hb
  · exact .overflow hp hle

/-- Trial division judges what 2 and 3 do not divide. -/
theorem trial_judges (h2 : ¬ 2 ∣ n) (h3 : ¬ 3 ∣ n) (h5 : 5 ≤ n) (hn : n < 2 ^ 63) :
    Judges n (trial n) := by
  apply Judges.of_cases
  apply Outcome.loop_of_measure_or_stuck (fun i : Int => ∃ m : Nat, i = m ∧ Trying n m)
    (fun i : Int => n + 5 - i.toNat)
  · show n + 5 - (5 : Int).toNat < (n : Int).toNat + 1
    omega
  · exact ⟨5, rfl, le_rfl, rfl, rough_five h2 h3, Or.inl rfl⟩
  rintro _ ⟨m, rfl, htry⟩
  have hlt := htry.lt hn
  have h5m := htry.five_le
  unfold trialTurn
  by_cases hover : 2 ^ 63 ≤ m * m
  · -- the candidate is past the last one with a square
    have hstuck : signed ((m : Int) * m) = .stuck := signed_of_greater (by exact_mod_cast hover)
    have hm : m = 3037000505 := by
      by_contra hne
      have hle : m ≤ 3037000499 := by have := htry.residue; omega
      have := Nat.mul_le_mul hle hle
      omega
    refine Or.inr (Or.inr ⟨by rw [hstuck]; rfl, htry.rough.prime (by omega) (by omega), ?_⟩)
    rcases htry.passed with hfive | hpassed
    · omega
    · rw [hm] at hpassed
      exact hpassed
  · rw [← Nat.cast_mul, signed_natCast (by omega), Outcome.done_bind]
    by_cases hgo : m * m ≤ n
    · rw [if_pos (by exact_mod_cast hgo), remainderOf_of_pos (by omega) hn, Outcome.done_bind]
      by_cases hfirst : m ∣ n
      · refine Or.inr (Or.inl ⟨false, ?_, ?_⟩)
        · rw [if_pos (by exact_mod_cast Nat.mod_eq_zero_of_dvd hfirst)]
          rfl
        · exact not_prime_of_dvd h5m hgo le_rfl (by omega) hfirst
      · rw [if_neg (by exact_mod_cast fun h => hfirst (Nat.dvd_of_mod_eq_zero h)),
          show (m : Int) + 2 = ((m + 2 : Nat) : Int) by omega, signed_natCast (by omega),
          Outcome.done_bind, remainderOf_of_pos (by omega) hn, Outcome.done_bind]
        by_cases hsecond : m + 2 ∣ n
        · refine Or.inr (Or.inl ⟨false, ?_, ?_⟩)
          · rw [if_pos (by exact_mod_cast Nat.mod_eq_zero_of_dvd hsecond)]
            rfl
          · exact not_prime_of_dvd h5m hgo (by omega) le_rfl hsecond
        · rw [if_neg (by exact_mod_cast fun h => hsecond (Nat.dvd_of_mod_eq_zero h)),
            show (m : Int) + 6 = ((m + 6 : Nat) : Int) by omega, signed_natCast (by omega),
            Outcome.done_bind]
          have hmn : m < n := by nlinarith only [h5m, hgo]
          refine Or.inl ⟨_, rfl, ⟨m + 6, rfl, by omega, ?_, ?_, Or.inr hgo⟩, ?_⟩
          · have := htry.residue
            omega
          · exact htry.rough.next h5m htry.residue hfirst hsecond
          · simp only [Int.toNat_natCast]
            omega
    · refine Or.inr (Or.inl ⟨true, ?_, htry.rough.prime (by omega) (by omega), ?_⟩)
      · rw [if_neg (by exact_mod_cast hgo)]
        rfl
      · -- the square fits, so the candidate is not past the last one
        have hle : m ≤ 3037000499 := by
          by_contra hgt
          have hbig : 3037000500 * 3037000500 ≤ m * m :=
            Nat.mul_le_mul (by omega) (by omega)
          omega
        have := Nat.mul_le_mul hle hle
        unfold lastSquare
        omega

/-! ## The greatest prime below the last square -/

/-- The greatest prime below the last square. -/
def lastPrime : Nat := 9223372030926248971

theorem prime_1090172221 : Nat.Prime 1090172221 := by
  apply prime_of_lucas 6 [2, 2, 3, 5, 109, 166693]
  · norm_num
  · simp only [List.forall_mem_cons]
    norm_num
  · norm_num
    reduce_mod_char
  · simp only [List.forall_mem_cons]
    norm_num
    reduce_mod_char
    decide

theorem prime_30524822189 : Nat.Prime 30524822189 := by
  apply prime_of_lucas 2 [2, 2, 7, 1090172221]
  · norm_num
  · simp only [List.forall_mem_cons, prime_1090172221]
    norm_num
  · norm_num
    reduce_mod_char
  · simp only [List.forall_mem_cons]
    norm_num
    reduce_mod_char
    decide

theorem prime_10071991 : Nat.Prime 10071991 := by
  apply prime_of_lucas 3 [2, 3, 3, 5, 17, 29, 227]
  · norm_num
  · simp only [List.forall_mem_cons]
    norm_num
  · norm_num
    reduce_mod_char
  · simp only [List.forall_mem_cons]
    norm_num
    reduce_mod_char
    decide

theorem prime_lastPrime : lastPrime.Prime := by
  show Nat.Prime 9223372030926248971
  apply prime_of_lucas 2 [2, 3, 5, 10071991, 30524822189]
  · norm_num
  · simp only [List.forall_mem_cons, prime_10071991, prime_30524822189]
    norm_num
  · norm_num
    reduce_mod_char
  · simp only [List.forall_mem_cons]
    norm_num
    reduce_mod_char
    decide

/-- Between it and the last square every number has a small factor. -/
theorem lastSquare_le_of_prime {p : Nat} (hp : p.Prime) (h : lastPrime < p) : lastSquare ≤ p := by
  have hnot : ∀ d, 1 < d → d < 200 → p % d ≠ 0 := by
    intro d hd hlt hmod
    unfold lastPrime at h
    rcases (Nat.dvd_prime hp).mp (Nat.dvd_of_mod_eq_zero hmod) with rfl | rfl <;> omega
  by_contra hlt
  unfold lastPrime at h
  unfold lastSquare at hlt
  have h2 := hnot 2 (by omega) (by omega)
  have h3 := hnot 3 (by omega) (by omega)
  have h5 := hnot 5 (by omega) (by omega)
  have h7 := hnot 7 (by omega) (by omega)
  have h11 := hnot 11 (by omega) (by omega)
  have h19 := hnot 19 (by omega) (by omega)
  have h59 := hnot 59 (by omega) (by omega)
  have h73 := hnot 73 (by omega) (by omega)
  have h109 := hnot 109 (by omega) (by omega)
  have h151 := hnot 151 (by omega) (by omega)
  obtain ⟨j, hj⟩ := Nat.exists_eq_add_of_lt h
  have hj' : j < 29 := by omega
  interval_cases j <;> omega

/-! ## The builtins -/

/-- A prime as a number of the language. -/
def PrimeInt (x : Int) : Prop := ∃ p : Nat, p.Prime ∧ x = p

theorem primeInt_natCast {k : Nat} : PrimeInt k ↔ k.Prime := by
  constructor
  · rintro ⟨p, hp, h⟩
    rwa [Int.natCast_inj.mp h]
  · exact fun h => ⟨k, h, rfl⟩

/-- `is_prime(n)` says whether `n` is prime. -/
def TestExact (n : Int64) : Prop := ∃ b, isPrime n = .done b ∧ (b = true ↔ PrimeInt n.toInt)

/-- `next_prime(n)` is the least prime from `max(n, 2)` on, if the type has one. -/
def NextExact (n : Int64) : Prop :=
  ∃ r, nextPrime n = .done r ∧
    ((∃ p, PrimeInt p ∧ cLong.Fits p ∧ max n.toInt 2 ≤ p) →
      PrimeInt r ∧ max n.toInt 2 ≤ r ∧ ∀ p, PrimeInt p → max n.toInt 2 ≤ p → r ≤ p)

/-- `prev_prime(n)` is the greatest prime up to `n`, or 0. -/
def PrevExact (n : Int64) : Prop :=
  ∃ r, prevPrime n = .done r ∧ (n.toInt < 2 → r = 0) ∧
    (2 ≤ n.toInt → PrimeInt r ∧ r ≤ n.toInt ∧ ∀ p, PrimeInt p → p ≤ n.toInt → p ≤ r)

/-- What the three builtins have to do for `n`. -/
structure PrimalityExact (n : Int64) : Prop where
  test : TestExact n
  next : NextExact n
  prev : PrevExact n

variable {i : Int64} {k c : Nat}

theorem tmod_natCast_eq_zero {a b : Nat} : (a : Int).tmod b = 0 ↔ b ∣ a := by
  rw [Int.tmod_eq_emod_of_nonneg (Int.natCast_nonneg a), ← Int.natCast_emod, Int.natCast_eq_zero,
    Nat.dvd_iff_mod_eq_zero]

theorem two_dvd_tmod {a : Nat} : (a : Int).tmod 2 = 0 ↔ 2 ∣ a := tmod_natCast_eq_zero (b := 2)

theorem three_dvd_tmod {a : Nat} : (a : Int).tmod 3 = 0 ↔ 3 ∣ a := tmod_natCast_eq_zero (b := 3)

theorem not_prime_of_two_dvd (h4 : 4 ≤ k) (h : 2 ∣ k) : ¬ k.Prime :=
  Nat.not_prime_of_dvd_of_lt h le_rfl (by omega)

theorem not_prime_of_three_dvd (h4 : 4 ≤ k) (h : 3 ∣ k) : ¬ k.Prime :=
  Nat.not_prime_of_dvd_of_lt h (by omega) (by omega)

theorem isPrime_judges (hi : i.toInt = k) : Judges k (isPrime i) := by
  have hlt : i.toInt < 2 ^ 63 := i.toInt_lt
  unfold isPrime
  rw [hi]
  by_cases h2 : k < 2
  · rw [if_pos (by omega)]
    exact .composite fun hp => absurd hp.two_le (by omega)
  rw [if_neg (by omega)]
  by_cases h4 : k < 4
  · have hp : k.Prime := by
      obtain rfl | rfl : k = 2 ∨ k = 3 := by omega
      · exact Nat.prime_two
      · exact Nat.prime_three
    rw [if_pos (by omega)]
    apply Judges.prime hp
    unfold lastSquare
    omega
  rw [if_neg (by omega)]
  simp only [two_dvd_tmod, three_dvd_tmod]
  by_cases hsmall : 2 ∣ k ∨ 3 ∣ k
  · rw [if_pos hsmall]
    apply Judges.composite
    rcases hsmall with h | h
    · exact not_prime_of_two_dvd (by omega) h
    · exact not_prime_of_three_dvd (by omega) h
  · rw [if_neg hsmall]
    obtain ⟨hodd, hthree⟩ := not_or.mp hsmall
    exact trial_judges hodd hthree (by omega) (by omega)

/-- The test is exact for what is not prime and for the primes below the last square. -/
theorem testExact_iff (n : Int64) :
    TestExact n ↔ ¬ (PrimeInt n.toInt ∧ (lastSquare : Int) ≤ n.toInt) := by
  by_cases hneg : n.toInt < 0
  · have hnot : ¬ PrimeInt n.toInt := by
      rintro ⟨p, -, hp⟩
      omega
    refine iff_of_true ⟨false, if_pos (by omega), by simpa using hnot⟩ fun h => hnot h.1
  obtain ⟨k, hk⟩ := Int.eq_ofNat_of_zero_le (Int.not_lt.mp hneg)
  rw [TestExact, hk, primeInt_natCast]
  have hjudges := isPrime_judges hk
  generalize isPrime n = x at hjudges ⊢
  cases hjudges with
  | prime hp hlt =>
    refine iff_of_true ⟨true, rfl, by simpa using hp⟩ fun h => ?_
    have := h.2
    omega
  | composite hnot => exact iff_of_true ⟨false, rfl, by simpa using hnot⟩ fun h => hnot h.1
  | overflow hp hle =>
    refine iff_of_false ?_ fun h => h ⟨hp, by exact_mod_cast hle⟩
    rintro ⟨b, hb, -⟩
    cases hb

/-! ## The search upwards -/

/-- The candidates of the search from `c` on. -/
structure Ascending (c m : Nat) : Prop where
  odd : ¬ 2 ∣ m
  five_le : 5 ≤ m
  lt : m < 2 ^ 63
  ge : c ≤ m
  below : ∀ p, p.Prime → c ≤ p → m ≤ p

/-- The number after a composite candidate. -/
theorem Ascending.next (h : Ascending c m) (hnot : ¬ m.Prime) (hlt : m + 2 < 2 ^ 63) :
    Ascending c (m + 2) := by
  have h5 := h.five_le
  have hodd := h.odd
  have hge := h.ge
  refine ⟨by omega, by omega, hlt, by omega, fun p hp hle => ?_⟩
  have hm := h.below p hp hle
  have hpodd : ¬ 2 ∣ p := fun hdvd => not_prime_of_two_dvd (by omega) hdvd hp
  have hne : p ≠ m := fun heq => hnot (heq ▸ hp)
  omega

theorem npIsp_judges (h2 : ¬ 2 ∣ m) (h5 : 5 ≤ m) (hm : m < 2 ^ 63) : Judges m (npIsp m) := by
  unfold npIsp
  simp only [three_dvd_tmod]
  by_cases h3 : 3 ∣ m
  · rw [if_pos h3, decide_eq_false (by omega)]
    exact .composite (not_prime_of_three_dvd (by omega) h3)
  · rw [if_neg h3]
    exact trial_judges h2 h3 h5 hm

/-- The search ends at the next prime, or gets stuck where that is not below the last square. -/
theorem ascend_cases (hodd : ¬ 2 ∣ c) (h5 : 5 ≤ c) (hc : c < 2 ^ 63) :
    (∃ r, Outcome.loop nextTurn (2 ^ 63) c = .done r ∧ ∃ p : Nat, r = p ∧ p.Prime ∧
        p < lastSquare ∧ c ≤ p ∧ ∀ p', p'.Prime → c ≤ p' → p ≤ p') ∨
      Outcome.loop nextTurn (2 ^ 63) c = .stuck ∧ ∀ p, p.Prime → c ≤ p → lastSquare ≤ p := by
  apply Outcome.loop_of_measure_or_stuck (fun s : Int => ∃ m : Nat, s = m ∧ Ascending c m)
    (fun s : Int => 2 ^ 63 - 1 - s.toNat)
  · show 2 ^ 63 - 1 - (c : Int).toNat < 2 ^ 63
    omega
  · exact ⟨c, rfl, hodd, h5, hc, le_rfl, fun _ _ h => h⟩
  rintro _ ⟨m, rfl, hm⟩
  have hjudges := npIsp_judges hm.odd hm.five_le hm.lt
  unfold nextTurn
  generalize npIsp m = isp at hjudges ⊢
  cases hjudges with
  | prime hp hlast => exact Or.inr (Or.inl ⟨_, rfl, m, rfl, hp, hlast, hm.ge, hm.below⟩)
  | overflow hp hle =>
    exact Or.inr (Or.inr ⟨rfl, fun p hp' hc' => hle.trans (hm.below p hp' hc')⟩)
  | composite hnot =>
    rw [Outcome.done_bind, if_neg Bool.false_ne_true,
      show (m : Int) + 2 = ((m + 2 : Nat) : Int) by omega]
    by_cases hover : m + 2 < 2 ^ 63
    · rw [signed_natCast hover]
      refine Or.inl ⟨_, rfl, ⟨_, rfl, hm.next hnot hover⟩, ?_⟩
      simp only [Int.toNat_natCast]
      omega
    · -- the candidates are used up
      rw [signed_of_greater (by omega)]
      refine Or.inr (Or.inr ⟨rfl, fun p hp hle => ?_⟩)
      have := hm.below p hp hle
      unfold lastSquare
      omega

/-- The first candidate is odd, and no prime lies before it. -/
theorem npStart_done (h4 : 4 ≤ k) (hk : k < 2 ^ 63) :
    ∃ c : Nat, npStart k = .done (c : Int) ∧ ¬ 2 ∣ c ∧ k ≤ c ∧ c < 2 ^ 63 ∧
      ∀ p, p.Prime → k ≤ p → c ≤ p := by
  unfold npStart
  simp only [two_dvd_tmod]
  by_cases heven : 2 ∣ k
  · rw [if_pos heven]
    refine ⟨k + 1, signed_natCast (show k + 1 < 2 ^ 63 by omega), by omega, by omega, by omega, ?_⟩
    intro p hp hle
    have hne : p ≠ k := fun heq => not_prime_of_two_dvd h4 heven (heq ▸ hp)
    omega
  · rw [if_neg heven]
    exact ⟨k, rfl, heven, le_rfl, hk, fun _ _ h => h⟩

/-- What a search for the next prime leaves with. -/
theorem nextPrime_cases (hi : i.toInt = k) :
    (∃ p : Nat, nextPrime i = .done (p : Int) ∧ p.Prime ∧ p < lastSquare ∧ max k 2 ≤ p ∧
        ∀ p', p'.Prime → max k 2 ≤ p' → p ≤ p') ∨
      nextPrime i = .stuck ∧ ∀ p, p.Prime → max k 2 ≤ p → lastSquare ≤ p := by
  have hlt : i.toInt < 2 ^ 63 := i.toInt_lt
  unfold nextPrime
  rw [hi]
  by_cases h2 : k ≤ 2
  · refine Or.inl ⟨2, if_pos (by omega), Nat.prime_two, by decide, by omega, fun p hp _ => ?_⟩
    exact hp.two_le
  rw [if_neg (by omega), max_eq_left (by omega)]
  by_cases h3 : k = 3
  · refine Or.inl ⟨3, if_pos (by omega), Nat.prime_three, by decide, by omega, ?_⟩
    omega
  obtain ⟨c, hc, hodd, hck, hclt, hnone⟩ := npStart_done (k := k) (by omega) (by omega)
  rw [if_neg (by omega), hc, Outcome.done_bind]
  rcases ascend_cases hodd (by omega) hclt with ⟨r, hr, p, rfl, hp, hlast, hle, hleast⟩ | ⟨hr, hall⟩
  · exact Or.inl ⟨p, hr, hp, hlast, hck.trans hle, fun p' hp' h => hleast p' hp' (hnone p' hp' h)⟩
  · exact Or.inr ⟨hr, fun p hp h => hall p hp (hnone p hp h)⟩

/-- The search upwards is exact up to the greatest prime below the last square. -/
theorem nextExact_iff (n : Int64) : NextExact n ↔ n.toInt ≤ lastPrime := by
  by_cases hneg : n.toInt < 0
  · refine iff_of_true ⟨2, if_pos (by omega), fun _ => ?_⟩ (by omega)
    rw [max_eq_right (by omega)]
    exact ⟨primeInt_natCast.mpr Nat.prime_two, le_rfl, fun p _ h => h⟩
  obtain ⟨k, hk⟩ := Int.eq_ofNat_of_zero_le (Int.not_lt.mp hneg)
  have hmax : max n.toInt 2 = ((max k 2 : Nat) : Int) := by omega
  rw [NextExact, hk, ← hk, hmax]
  rcases nextPrime_cases hk with ⟨p, hr, hp, hlast, hle, hleast⟩ | ⟨hr, hall⟩
  · refine iff_of_true ⟨p, hr, fun _ => ⟨primeInt_natCast.mpr hp, by omega, ?_⟩⟩ ?_
    · rintro _ ⟨p', hp', rfl⟩ h
      exact_mod_cast hleast p' hp' (by exact_mod_cast h)
    · have hgap : ¬ lastPrime < p := fun h => absurd (lastSquare_le_of_prime hp h) (by omega)
      omega
  · refine iff_of_false ?_ fun h => ?_
    · rintro ⟨r, hdone, -⟩
      rw [hr] at hdone
      cases hdone
    · have h2 : 2 ≤ lastPrime := by decide
      have := hall lastPrime prime_lastPrime (by omega)
      exact absurd this (by decide)

/-! ## The search downwards -/

/-- The candidates of the search from `c` down. -/
structure Descending (c m : Nat) : Prop where
  odd : ¬ 2 ∣ m
  five_le : 5 ≤ m
  le : m ≤ c
  above : ∀ p, p.Prime → p ≤ c → p ≤ m

/-- The number before a composite candidate. -/
theorem Descending.next (h : Descending c m) (hnot : ¬ m.Prime) : Descending c (m - 2) := by
  have h5 := h.five_le
  have hodd := h.odd
  have hle := h.le
  have hne5 : m ≠ 5 := fun heq => hnot (heq ▸ Nat.prime_five)
  refine ⟨by omega, by omega, by omega, fun p hp hpc => ?_⟩
  have hpm := h.above p hp hpc
  have hne : p ≠ m := fun heq => hnot (heq ▸ hp)
  rcases Nat.lt_or_ge p 4 with hsmall | hbig
  · omega
  · have hpodd : ¬ 2 ∣ p := fun hdvd => not_prime_of_two_dvd hbig hdvd hp
    omega

theorem ppIsp_judges (h2 : ¬ 2 ∣ m) (h5 : 5 ≤ m) (hm : m < 2 ^ 63) : Judges m (ppIsp m) := by
  unfold ppIsp
  simp only [three_dvd_tmod]
  rw [if_neg (by omega)]
  by_cases h3 : 3 ∣ m
  · rw [if_pos h3]
    exact .composite (not_prime_of_three_dvd (by omega) h3)
  · rw [if_neg h3]
    exact trial_judges h2 h3 h5 hm

/-- Below the last square the search ends at the previous prime. -/
theorem descend_done (hodd : ¬ 2 ∣ c) (h5 : 5 ≤ c) (hc : c < lastSquare) {fuel : Nat}
    (hfuel : c < fuel) : ∃ r, Outcome.loop prevTurn fuel c = .done r ∧ ∃ p : Nat, r = p ∧ p.Prime ∧
      p ≤ c ∧ ∀ p', p'.Prime → p' ≤ c → p' ≤ p := by
  have hlast : lastSquare < 2 ^ 63 := by decide
  apply Outcome.loop_of_measure (fun s : Int => ∃ m : Nat, s = m ∧ Descending c m)
    (fun s : Int => s.toNat)
  · exact hfuel
  · exact ⟨c, rfl, hodd, h5, le_rfl, fun _ _ h => h⟩
  rintro _ ⟨m, rfl, hm⟩
  have hmc := hm.le
  have hm5 := hm.five_le
  have hjudges := ppIsp_judges hm.odd hm5 (by omega)
  unfold prevTurn
  generalize ppIsp m = isp at hjudges ⊢
  cases hjudges with
  | prime hp _ => exact Or.inr ⟨_, rfl, m, rfl, hp, hmc, hm.above⟩
  | overflow _ hle => omega
  | composite hnot =>
    have hnext := hm.next hnot
    have hnext5 := hnext.five_le
    rw [Outcome.done_bind, if_neg Bool.false_ne_true,
      show (m : Int) - 2 = ((m - 2 : Nat) : Int) by omega, signed_natCast (by omega),
      Outcome.done_bind, if_neg (by omega)]
    refine Or.inl ⟨_, rfl, ⟨_, rfl, hnext⟩, ?_⟩
    simp only [Int.toNat_natCast]
    omega

/-- The first candidate is odd, and no prime lies behind it. -/
theorem ppStart_done (h5 : 5 ≤ k) (hk : k < 2 ^ 63) :
    ∃ c : Nat, ppStart k = .done (c : Int) ∧ ¬ 2 ∣ c ∧ c ≤ k ∧ 5 ≤ c ∧
      ∀ p, p.Prime → p ≤ k → p ≤ c := by
  unfold ppStart
  simp only [two_dvd_tmod]
  by_cases heven : 2 ∣ k
  · rw [if_pos heven, show (k : Int) - 1 = ((k - 1 : Nat) : Int) by omega]
    refine ⟨k - 1, signed_natCast (by omega), by omega, by omega, by omega, fun p hp hle => ?_⟩
    have hne : p ≠ k := fun heq => not_prime_of_two_dvd (by omega) heven (heq ▸ hp)
    omega
  · rw [if_neg heven]
    exact ⟨k, rfl, heven, le_rfl, h5, fun _ _ h => h⟩

/-- The search downwards is exact below the last square. -/
theorem prevExact_of_lt (n : Int64) (h : n.toInt < lastSquare) : PrevExact n := by
  have hlast : lastSquare < 2 ^ 63 := by decide
  by_cases hsmall : n.toInt < 2
  · exact ⟨0, if_pos hsmall, fun _ => rfl, by omega⟩
  obtain ⟨k, hk⟩ := Int.eq_ofNat_of_zero_le (show 0 ≤ n.toInt by omega)
  unfold PrevExact prevPrime
  rw [hk] at hsmall h ⊢
  rw [if_neg hsmall]
  by_cases h2 : k = 2
  · refine ⟨2, if_pos (by omega), by omega, fun _ => ⟨⟨2, Nat.prime_two, rfl⟩, by omega, ?_⟩⟩
    omega
  rw [if_neg (by omega)]
  by_cases h5 : k < 5
  · refine ⟨3, if_pos (by omega), by omega, fun _ => ⟨⟨3, Nat.prime_three, rfl⟩, by omega, ?_⟩⟩
    rintro _ ⟨p, hp, rfl⟩ hle
    have hne : p ≠ 4 := fun heq => absurd (heq ▸ hp) (by decide)
    omega
  obtain ⟨c, hc, hodd, hck, hc5, hnone⟩ := ppStart_done (k := k) (by omega) (by omega)
  rw [if_neg (by omega), hc, Outcome.done_bind]
  obtain ⟨r, hr, p, rfl, hp, hle, hgreatest⟩ :=
    descend_done hodd hc5 (by omega) (show c < (k : Int).toNat + 1 by omega)
  refine ⟨p, hr, by omega, fun _ => ⟨primeInt_natCast.mpr hp, by omega, ?_⟩⟩
  rintro _ ⟨p', hp', rfl⟩ hp'k
  exact_mod_cast hgreatest p' hp' (hnone p' hp' (by exact_mod_cast hp'k))

/-- **The tests of primality** are exact, end and stay within `int64_t` together exactly up to
the greatest prime below the square of 3037000499.
Source: backend_c.rs:11173-11176, 11346-11349, 11392-11395 -/
theorem primalityExact_iff (n : Int64) : PrimalityExact n ↔ n.toInt ≤ 9223372030926248971 := by
  have hlast : (lastPrime : Int) = 9223372030926248971 := rfl
  have hsquare : (lastSquare : Int) = 9223372030926249001 := rfl
  constructor
  · intro h
    exact (nextExact_iff n).mp h.next
  · intro h
    refine ⟨(testExact_iff n).mpr fun hp => ?_, (nextExact_iff n).mpr h, prevExact_of_lt n ?_⟩
    · omega
    · omega

/-- After the greatest prime below the last square the search overflows, on the next prime. -/
theorem primality_inexact : ¬ ∀ n : Int64, PrimalityExact n := by
  intro h
  have hle := (nextExact_iff 9223372030926248972).mp (h 9223372030926248972).next
  exact absurd hle (by decide)

end Vani.Analysis
