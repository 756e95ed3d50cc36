import Mathlib.Data.Nat.Totient
import Mathlib.NumberTheory.Divisors
import Mathlib.NumberTheory.LucasPrimality
import Mathlib.Data.List.Prime

/-!
# Divisors and prime factors by trial division

Divisors come in pairs around the root: below a bound `i` and above `n / i` they are found once
the candidates below `i` are done. Prime factors are found in increasing order, and what is left
of the number when they are taken out has none of them.
-/

set_option autoImplicit false

namespace Vani.Library

open Finset

/-!
## Primality

Trial division by 5, 7, 11, 13, …: what has no prime factor below `m` is prime once `m * m`
exceeds it, and after the two candidates `m` and `m + 2` with `m` of the form `6 k + 5` the
next factor can only be `m + 6`. For single large primes there is Lucas's test.
-/

section Primality

/-- The number has no prime factor below `m`. -/
def Rough (m n : ℕ) : Prop := ∀ p, p.Prime → p ∣ n → m ≤ p

variable {m n p : ℕ}

theorem prime_mod_six (hp : p.Prime) (h5 : 5 ≤ p) : p % 6 = 1 ∨ p % 6 = 5 := by
  have h2 : ¬ 2 ∣ p := fun h => by
    have := (Nat.prime_dvd_prime_iff_eq Nat.prime_two hp).mp h
    omega
  have h3 : ¬ 3 ∣ p := fun h => by
    have := (Nat.prime_dvd_prime_iff_eq Nat.prime_three hp).mp h
    omega
  omega

/-- What neither 2 nor 3 divides has no factor below 5. -/
theorem rough_five (h2 : ¬ 2 ∣ n) (h3 : ¬ 3 ∣ n) : Rough 5 n := by
  intro p hp hdvd
  by_contra hlt
  have hle : p < 5 := Nat.lt_of_not_le hlt
  have htwo := hp.two_le
  obtain rfl | rfl | rfl : p = 2 ∨ p = 3 ∨ p = 4 := by omega
  · exact h2 hdvd
  · exact h3 hdvd
  · exact absurd hp (by decide)

/-- Two divisions rule out the factors up to the next candidate. -/
theorem Rough.next (h : Rough m n) (h5 : 5 ≤ m) (hm : m % 6 = 5) (hfirst : ¬ m ∣ n)
    (hsecond : ¬ m + 2 ∣ n) : Rough (m + 6) n := by
  intro p hp hdvd
  have hle := h p hp hdvd
  have hne : p ≠ m := fun heq => hfirst (heq ▸ hdvd)
  have hne' : p ≠ m + 2 := fun heq => hsecond (heq ▸ hdvd)
  have hmod := prime_mod_six hp (h5.trans hle)
  omega

/-- Without a factor up to its root a number is prime. -/
theorem Rough.prime (h : Rough m n) (h2 : 2 ≤ n) (hroot : n < m * m) : n.Prime := by
  by_contra hnot
  have hsquare := Nat.minFac_sq_le_self (by omega) hnot
  have hle := h _ (Nat.minFac_prime (by omega)) (Nat.minFac_dvd n)
  rw [pow_two] at hsquare
  exact absurd (Nat.mul_le_mul hle hle) (by omega)

/-- Lucas's test, from the prime factors of `p - 1`. -/
theorem prime_of_lucas (a : ZMod p) (fs : List ℕ) (hprod : fs.prod = p - 1)
    (hfs : ∀ q ∈ fs, q.Prime) (hone : a ^ (p - 1) = 1)
    (hne : ∀ q ∈ fs, a ^ ((p - 1) / q) ≠ 1) : p.Prime := by
  apply lucas_primality p a hone
  intro q hq hdvd
  apply hne q
  apply mem_list_primes_of_dvd_prod hq.prime (fun r hr => (hfs r hr).prime)
  rw [hprod]
  exact hdvd

end Primality

variable {n m i k p d : ℕ}

/-! ## Pairs of divisors -/

/-- The divisors below a bound, and those paired with them. -/
def lowDivisors (n i : ℕ) : Finset ℕ := n.divisors.filter fun d => d < i ∨ n / d < i

theorem mem_lowDivisors : d ∈ lowDivisors n i ↔ (d ∣ n ∧ n ≠ 0) ∧ (d < i ∨ n / d < i) := by
  rw [lowDivisors, mem_filter, Nat.mem_divisors]

theorem lowDivisors_one (n : ℕ) : lowDivisors n 1 = ∅ := by
  apply filter_eq_empty_iff.mpr
  intro d hd hlow
  have hpos := Nat.pos_of_mem_divisors hd
  have hpartner : 0 < n / d := Nat.div_pos (Nat.divisor_le hd) hpos
  omega

/-- The divisor paired with one that is not below the bound. -/
theorem eq_of_partner (hn : 0 < n) (hd : d ∣ n) (h : n / d = i) : i ∣ n ∧ n / i = d := by
  subst h
  exact ⟨Nat.div_dvd_of_dvd hd, Nat.div_div_self hd hn.ne'⟩

/-- A divisor and its partner are together at most one more than the number. -/
theorem pair_le (hi : 0 < i) (hn : 0 < n) (hd : i ∣ n) : i + n / i ≤ n + 1 := by
  have hmul := Nat.mul_div_cancel' hd
  have hpartner : 0 < n / i := Nat.div_pos (Nat.le_of_dvd hn hd) hi
  by_cases h1 : i = 1
  · rw [h1, Nat.div_one, add_comm]
  · by_cases h2 : n / i = 1
    · rw [h2, mul_one] at hmul
      omega
    · have hle : i + n / i ≤ i * (n / i) := Nat.add_le_mul (by omega) (by omega)
      omega

theorem lowDivisors_succ_of_not_dvd (hn : 0 < n) (h : ¬ i ∣ n) :
    lowDivisors n (i + 1) = lowDivisors n i := by
  ext d
  rw [mem_lowDivisors, mem_lowDivisors]
  refine and_congr_right fun hd => ?_
  have hne : d ≠ i := fun heq => h (heq ▸ hd.1)
  have hne' : n / d ≠ i := fun heq => h (eq_of_partner hn hd.1 heq).1
  omega

/-- A candidate up to the root is new, and so is its partner. -/
theorem not_mem_lowDivisors (hi : 0 < i) (hd : i ∣ n) (hle : i * i ≤ n) :
    i ∉ lowDivisors n i ∧ n / i ∉ lowDivisors n i := by
  have hpartner : i ≤ n / i := (Nat.le_div_iff_mul_le hi).mpr hle
  constructor
  · intro hmem
    have hlow := (mem_lowDivisors.mp hmem).2
    omega
  · intro hmem
    obtain ⟨⟨-, hn⟩, hlow⟩ := mem_lowDivisors.mp hmem
    rw [Nat.div_div_self hd hn] at hlow
    omega

theorem lowDivisors_succ (hn : 0 < n) (hd : i ∣ n) :
    lowDivisors n (i + 1) = insert i (insert (n / i) (lowDivisors n i)) := by
  ext d
  rw [mem_insert, mem_insert, mem_lowDivisors, mem_lowDivisors]
  constructor
  · rintro ⟨hdvd, hlow⟩
    by_cases heq : d = i
    · exact Or.inl heq
    · by_cases heq' : n / d = i
      · exact Or.inr (Or.inl (eq_of_partner hn hdvd.1 heq').2.symm)
      · exact Or.inr (Or.inr ⟨hdvd, by omega⟩)
  · rintro (rfl | rfl | ⟨hdvd, hlow⟩)
    · exact ⟨⟨hd, hn.ne'⟩, by omega⟩
    · refine ⟨⟨Nat.div_dvd_of_dvd hd, hn.ne'⟩, Or.inr ?_⟩
      rw [Nat.div_div_self hd hn.ne']
      exact Nat.lt_succ_self i
    · exact ⟨hdvd, by omega⟩

/-- The root has no other partner. -/
theorem sum_lowDivisors_root (f : ℕ → ℕ) (hi : 0 < i) (hroot : i * i = n) :
    ∑ d ∈ lowDivisors n (i + 1), f d = ∑ d ∈ lowDivisors n i, f d + f i := by
  have hd : i ∣ n := ⟨i, hroot.symm⟩
  have hpartner : n / i = i := by rw [← hroot, Nat.mul_div_cancel _ hi]
  obtain ⟨hnew, -⟩ := not_mem_lowDivisors hi hd hroot.le
  rw [lowDivisors_succ (hroot ▸ Nat.mul_pos hi hi) hd, hpartner, insert_idem, sum_insert hnew,
    add_comm]

theorem sum_lowDivisors_pair (f : ℕ → ℕ) (hi : 0 < i) (hd : i ∣ n) (hlt : i * i < n) :
    ∑ d ∈ lowDivisors n (i + 1), f d = ∑ d ∈ lowDivisors n i, f d + (f i + f (n / i)) := by
  obtain ⟨hnew, hnew'⟩ := not_mem_lowDivisors hi hd hlt.le
  have hne : i ∉ insert (n / i) (lowDivisors n i) := by
    intro hmem
    rcases mem_insert.mp hmem with heq | hmem
    · have hmul := Nat.div_mul_cancel hd
      rw [← heq] at hmul
      omega
    · exact hnew hmem
  rw [lowDivisors_succ (by omega) hd, sum_insert hne, sum_insert hnew']
  omega

/-- Past the root every divisor is found. -/
theorem lowDivisors_end (h : n < i * i) : lowDivisors n i = n.divisors := by
  apply filter_true_of_mem
  intro d hd
  have hdvd := Nat.dvd_of_mem_divisors hd
  by_contra hhigh
  have hmul := Nat.div_mul_cancel hdvd
  have hle : i * i ≤ n / d * d := Nat.mul_le_mul (by omega) (by omega)
  omega

theorem sum_lowDivisors_le (f : ℕ → ℕ) (n i : ℕ) :
    ∑ d ∈ lowDivisors n i, f d ≤ ∑ d ∈ n.divisors, f d :=
  sum_le_sum_of_subset (filter_subset _ _)

/-! ## Prime factors -/

/-- The prime factors of `n` that are no longer in `m`. -/
def foundPrimes (n m : ℕ) : Finset ℕ := n.primeFactors \ m.primeFactors

theorem foundPrimes_self (n : ℕ) : foundPrimes n n = ∅ := Finset.sdiff_self _

/-- A candidate that divides a number without smaller factors is prime. -/
theorem Rough.prime_of_dvd (h : Rough i m) (h2 : 2 ≤ i) (hd : i ∣ m) : i.Prime := by
  have hmin := h _ (Nat.minFac_prime (by omega)) ((Nat.minFac_dvd i).trans hd)
  have hle := Nat.minFac_le (show 0 < i by omega)
  rw [← Nat.prime_def_minFac.mpr ⟨h2, le_antisymm hle hmin⟩ |>.minFac_eq]
  exact Nat.minFac_prime (by omega)

/-- A factor is taken out of what is left. -/
theorem foundPrimes_insert (hn : n ≠ 0) (hm : p ^ k * m ∣ n) (hp : p.Prime) (hk : k ≠ 0)
    (hout : ¬ p ∣ m) :
    foundPrimes n m = insert p (foundPrimes n (p ^ k * m)) ∧
      p ∉ foundPrimes n (p ^ k * m) := by
  have hm0 : m ≠ 0 := fun h0 => hout (h0 ▸ dvd_zero p)
  have hsplit : (p ^ k * m).primeFactors = insert p m.primeFactors := by
    rw [Nat.primeFactors_mul (pow_ne_zero k hp.ne_zero) hm0, Nat.primeFactors_prime_pow hk hp,
      insert_eq]
  have hpn : p ∈ n.primeFactors :=
    Nat.mem_primeFactors.mpr ⟨hp, ((dvd_pow_self p hk).mul_right m).trans hm, hn⟩
  have hpm : p ∉ m.primeFactors := fun hmem => hout (Nat.dvd_of_mem_primeFactors hmem)
  unfold foundPrimes
  rw [hsplit]
  constructor
  · ext q
    simp only [mem_sdiff, mem_insert]
    by_cases hq : q = p
    · subst hq
      simp [hpn, hpm]
    · simp [hq]
  · simp

/-- Without a factor the number is left alone. -/
theorem Rough.succ (h : Rough i m) (hout : ¬ i ∣ m) : Rough (i + 1) m := by
  intro p hp hd
  have hle := h p hp hd
  have hne : p ≠ i := fun heq => hout (heq ▸ hd)
  omega

/-- When one is left, every prime factor is found. -/
theorem foundPrimes_one (n : ℕ) : foundPrimes n 1 = n.primeFactors := by
  rw [foundPrimes, Nat.primeFactors_one, sdiff_empty]

/-! ## Euler's function and the radical -/

/-- The product of Euler's formula over some of the prime factors. -/
def totientPart (n : ℕ) (s : Finset ℕ) : ℕ := n / (∏ p ∈ s, p) * ∏ p ∈ s, (p - 1)

theorem totientPart_empty (n : ℕ) : totientPart n ∅ = n := by
  rw [totientPart, prod_empty, prod_empty, Nat.div_one, mul_one]

theorem totientPart_primeFactors (n : ℕ) : totientPart n n.primeFactors = n.totient :=
  (Nat.totient_eq_div_primeFactors_mul n).symm

theorem prod_primes_dvd {s : Finset ℕ} (hs : s ⊆ n.primeFactors) : ∏ p ∈ s, p ∣ n :=
  (prod_dvd_prod_of_subset _ _ _ hs).trans (Nat.prod_primeFactors_dvd n)

/-- One more prime factor takes its share away. -/
theorem totientPart_insert {s : Finset ℕ} (hs : s ⊆ n.primeFactors) (hp : p ∈ n.primeFactors)
    (hnew : p ∉ s) : p ∣ totientPart n s ∧
      totientPart n s - totientPart n s / p = totientPart n (insert p s) := by
  have hpos : 0 < p := (Nat.prime_of_mem_primeFactors hp).pos
  have hdvd : p * ∏ q ∈ s, q ∣ n := by
    have hall := prod_primes_dvd (insert_subset hp hs)
    rwa [prod_insert hnew] at hall
  have hprod : 0 < ∏ q ∈ s, q :=
    prod_pos fun q hq => (Nat.prime_of_mem_primeFactors (hs hq)).pos
  obtain ⟨t, ht⟩ := hdvd
  have hold : totientPart n s = p * (t * ∏ q ∈ s, (q - 1)) := by
    rw [totientPart, ht, mul_comm p, mul_assoc, Nat.mul_div_cancel_left _ hprod, mul_assoc]
  have hnext : totientPart n (insert p s) = t * ((p - 1) * ∏ q ∈ s, (q - 1)) := by
    rw [totientPart, prod_insert hnew, prod_insert hnew, ht,
      Nat.mul_div_cancel_left _ (Nat.mul_pos hpos hprod)]
  refine ⟨⟨_, hold⟩, ?_⟩
  rw [hold, hnext, Nat.mul_div_cancel_left _ hpos, ← Nat.sub_one_mul]
  ring

theorem totientPart_le (n : ℕ) {s : Finset ℕ} (hs : s ⊆ n.primeFactors) :
    totientPart n s ≤ n := by
  have hle : ∏ p ∈ s, (p - 1) ≤ ∏ p ∈ s, p := prod_le_prod' fun p _ => Nat.sub_le p 1
  rw [totientPart]
  calc n / (∏ p ∈ s, p) * ∏ p ∈ s, (p - 1) ≤ n / (∏ p ∈ s, p) * ∏ p ∈ s, p :=
        Nat.mul_le_mul_left _ hle
    _ = n := Nat.div_mul_cancel (prod_primes_dvd hs)

end Vani.Library
