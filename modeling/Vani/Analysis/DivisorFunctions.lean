import Vani.Library.Divisors
import Vani.Analysis.Primality
import Vani.Analysis.Powers

/-!
# Functions of the divisors

The number and the sum of the divisors come from one loop up to the root, Euler's function and
the radical from one loop that takes the prime factors out. All of them square the candidate
after the root, which is in `int64_t` for numbers below the last square.
-/

set_option autoImplicit false

namespace Vani.Analysis

open Vani.Library Vani.Backend
open Vec (signed)

variable {n i r m p : ℕ}

/-- The square of a candidate. -/
theorem signed_candidate (hi : i ≤ 3037000499) :
    signed ((i : ℤ) * (i : ℤ)) = .done ((i * i : ℕ) : ℤ) := by
  have hle : i * i ≤ 3037000499 * 3037000499 := Nat.mul_le_mul hi hi
  rw [← Int.natCast_mul]
  exact signed_natCast (by omega)

theorem signed_next (hi : i ≤ 3037000499) : signed ((i : ℤ) + 1) = .done ((i + 1 : ℕ) : ℤ) := by
  exact_mod_cast signed_natCast (k := i + 1) (by omega)

/-- The loops stop before the square overflows. -/
theorem candidate_lt (hlast : n < lastSquare) (hle : i * i ≤ n) : i + 1 ≤ 3037000499 := by
  apply Classical.byContradiction
  intro hgt
  have hsquare : 3037000499 * 3037000499 ≤ i * i := Nat.mul_le_mul (by omega) (by omega)
  unfold lastSquare at hlast
  omega

/-! ## Divisors in pairs -/

section Divisors

/-- What a divisor up to the root adds together with its partner. -/
def share (f : ℕ → ℕ) (n i : ℕ) : ℕ := if i * i = n then f i else f i + f (n / i)

/-- `weigh` adds what `f` gives for a divisor and its partner. -/
def Weighs (weigh : ℤ → ℤ → Bool → Outcome ℤ) (f : ℕ → ℕ) (n : ℕ) : Prop :=
  ∀ r i : ℕ, 0 < i → i ∣ n →
    weigh r i (decide (((i * i : ℕ) : ℤ) = n)) = signed ((r + share f n i : ℕ) : ℤ)

variable {weigh : ℤ → ℤ → Bool → Outcome ℤ} {f : ℕ → ℕ}

/-- The variables when the candidates below `i` are done. -/
def divisorState (f : ℕ → ℕ) (n i : ℕ) : ℤ × ℤ :=
  ((i : ℤ), ((∑ d ∈ lowDivisors n i, f d : ℕ) : ℤ))

/-- A turn adds the share of its candidate, as far as `int64_t` has the sum. -/
theorem divisorTurn_eq (hw : Weighs weigh f n) (hn : n < 2 ^ 63) (hi : 0 < i)
    (hbound : i ≤ 3037000499) (hle : i * i ≤ n)
    (hsum : ∑ d ∈ lowDivisors n i, f d < 2 ^ 63) :
    divisorTurn weigh n (divisorState f n i) =
      if ∑ d ∈ lowDivisors n (i + 1), f d < 2 ^ 63
      then .done (.inl (divisorState f n (i + 1))) else .stuck := by
  unfold divisorTurn divisorState
  dsimp only
  rw [signed_candidate hbound, Outcome.done_bind, if_pos (by omega), remainderOf_of_pos hi hn,
    Outcome.done_bind]
  by_cases hd : i ∣ n
  · have hrest : ((n % i : ℕ) : ℤ) = 0 := by rw [Nat.mod_eq_zero_of_dvd hd]; rfl
    have hshare : ∑ d ∈ lowDivisors n (i + 1), f d =
        ∑ d ∈ lowDivisors n i, f d + share f n i := by
      unfold share
      by_cases hroot : i * i = n
      · rw [if_pos hroot, sum_lowDivisors_root f hi hroot]
      · rw [if_neg hroot, sum_lowDivisors_pair f hi hd (by omega)]
    rw [if_pos hrest, hw _ i hi hd, ← hshare]
    by_cases hfits : ∑ d ∈ lowDivisors n (i + 1), f d < 2 ^ 63
    · rw [if_pos hfits, signed_natCast hfits, Outcome.done_bind, signed_next hbound]
      rfl
    · rw [if_neg hfits, signed_of_not_range (by omega)]
      rfl
  · have hrest : ¬ ((n % i : ℕ) : ℤ) = 0 := by
      intro h0
      exact hd (Nat.dvd_of_mod_eq_zero (by exact_mod_cast h0))
    rw [if_neg hrest, lowDivisors_succ_of_not_dvd ((Nat.mul_pos hi hi).trans_le hle) hd,
      if_pos hsum, Outcome.pure_eq, Outcome.done_bind, signed_next hbound]
    rfl

theorem divisorTurn_end (hbound : i ≤ 3037000499) (hlt : n < i * i) :
    divisorTurn weigh n (divisorState f n i) =
      .done (.inr ((∑ d ∈ n.divisors, f d : ℕ) : ℤ)) := by
  unfold divisorTurn divisorState
  dsimp only
  rw [signed_candidate hbound, Outcome.done_bind, if_neg (by omega), lowDivisors_end hlt]
  rfl

theorem divisorState_one (f : ℕ → ℕ) (n : ℕ) : divisorState f n 1 = (1, 0) := by
  rw [divisorState, lowDivisors_one]
  rfl

/-- Below the last square, the loop returns exactly where the whole sum is in `int64_t`. -/
theorem overDivisors_done {a : Int64} (ha : a.toInt = n) (hw : Weighs weigh f n) (hpos : 0 < n)
    (hlast : n < lastSquare) (hsum : ∑ d ∈ n.divisors, f d < 2 ^ 63) :
    overDivisors weigh a = .done ((∑ d ∈ n.divisors, f d : ℕ) : ℤ) := by
  have hn : n < 2 ^ 63 := hlast.trans (by decide)
  have hloop : ∃ r, Outcome.loop (divisorTurn weigh n) (n + 1) (divisorState f n 1) = .done r ∧
      r = ((∑ d ∈ n.divisors, f d : ℕ) : ℤ) := by
    apply Outcome.loop_of_measure
      (fun s => ∃ i, (0 < i ∧ i ≤ 3037000499) ∧ s = divisorState f n i)
      (fun s => n + 1 - s.1.toNat) ?_ ⟨1, ⟨by decide, by decide⟩, rfl⟩
    · rintro s ⟨i, ⟨hi, hbound⟩, rfl⟩
      by_cases hle : i * i ≤ n
      · have hfits := (sum_lowDivisors_le f n (i + 1)).trans_lt hsum
        have hfits' := (sum_lowDivisors_le f n i).trans_lt hsum
        have hin : i ≤ n := (Nat.le_mul_self i).trans hle
        rw [divisorTurn_eq hw hn hi hbound hle hfits', if_pos hfits]
        refine Or.inl ⟨_, rfl, ⟨i + 1, ⟨by omega, candidate_lt hlast hle⟩, rfl⟩, ?_⟩
        simp only [divisorState, Int.toNat_natCast]
        omega
      · exact Or.inr ⟨_, divisorTurn_end hbound (by omega), rfl⟩
    · simp only [divisorState, Int.toNat_natCast]
      omega
  obtain ⟨r, hr, rfl⟩ := hloop
  unfold overDivisors
  rw [ha, if_neg (by omega), Int.toNat_natCast, ← divisorState_one f n]
  exact hr

theorem sum_lt_of_done {a : Int64} (ha : a.toInt = n) (hw : Weighs weigh f n) (hpos : 0 < n)
    (hlast : n < lastSquare) {x : ℤ} (h : overDivisors weigh a = .done x) :
    ∑ d ∈ n.divisors, f d < 2 ^ 63 := by
  have hn : n < 2 ^ 63 := hlast.trans (by decide)
  unfold overDivisors at h
  rw [ha, if_neg (by omega), Int.toNat_natCast, ← divisorState_one f n] at h
  refine Outcome.loop_keeps (P := fun _ => ∑ d ∈ n.divisors, f d < 2 ^ 63)
    (fun s => ∃ i, (0 < i ∧ i ≤ 3037000499 ∧ ∑ d ∈ lowDivisors n i, f d < 2 ^ 63) ∧
      s = divisorState f n i) ⟨1, ⟨by decide, by decide, ?_⟩, rfl⟩ ?_ ?_ h
  · rw [lowDivisors_one, Finset.sum_empty]
    decide
  · rintro s s' ⟨i, ⟨hi, hbound, hsum⟩, rfl⟩ hstep
    by_cases hle : i * i ≤ n
    · rw [divisorTurn_eq hw hn hi hbound hle hsum] at hstep
      by_cases hfits : ∑ d ∈ lowDivisors n (i + 1), f d < 2 ^ 63
      · rw [if_pos hfits] at hstep
        cases hstep
        exact ⟨i + 1, ⟨by omega, candidate_lt hlast hle, hfits⟩, rfl⟩
      · rw [if_neg hfits] at hstep
        cases hstep
    · rw [divisorTurn_end hbound (by omega)] at hstep
      cases hstep
  · rintro s x ⟨i, ⟨hi, hbound, hsum⟩, rfl⟩ hend
    by_cases hle : i * i ≤ n
    · rw [divisorTurn_eq hw hn hi hbound hle hsum] at hend
      split at hend <;> cases hend
    · rwa [lowDivisors_end (by omega)] at hsum

/-- From the last square on, the square of a candidate overflows. -/
theorem overDivisors_stuck {a : Int64} (ha : a.toInt = n) (hlast : lastSquare ≤ n)
    (hw : ∀ r i root, weigh r i root = .stuck ∨ ∃ r', weigh r i root = .done r') :
    overDivisors weigh a = .stuck := by
  have hlt := (toInt_range a).2
  have hn : n < 2 ^ 63 := by omega
  have hpos : 0 < n := lt_of_lt_of_le (by decide) hlast
  unfold overDivisors
  rw [ha, if_neg (by omega)]
  apply Outcome.loop_of_stuck
    (fun s => ∃ (i : ℕ) (r : ℤ), (0 < i ∧ i ≤ 3037000500) ∧ s = ((i : ℤ), r))
    ⟨1, 0, ⟨by decide, by decide⟩, rfl⟩
  rintro s ⟨i, r, ⟨hi, hbound⟩, rfl⟩
  unfold divisorTurn
  dsimp only
  by_cases hend : i = 3037000500
  · subst hend
    left
    rw [signed_of_not_range (by decide)]
    rfl
  · have hi' : i ≤ 3037000499 := by omega
    have hle : i * i ≤ n := (Nat.mul_le_mul hi' hi').trans hlast
    rw [signed_candidate hi', Outcome.done_bind, if_pos (by omega), remainderOf_of_pos hi hn,
      Outcome.done_bind]
    by_cases hrest : ((n % i : ℕ) : ℤ) = 0
    · rw [if_pos hrest]
      rcases hw r i (decide (((i * i : ℕ) : ℤ) = n)) with hstuck | ⟨r', hdone⟩
      · rw [hstuck]
        exact Or.inl rfl
      · rw [hdone, Outcome.done_bind, signed_next hi']
        exact Or.inr ⟨_, rfl, i + 1, r', ⟨by omega, by omega⟩, rfl⟩
    · rw [if_neg hrest, Outcome.pure_eq, Outcome.done_bind, signed_next hi']
      exact Or.inr ⟨_, rfl, i + 1, r, ⟨by omega, by omega⟩, rfl⟩

theorem signed_cases (x : ℤ) : signed x = .stuck ∨ ∃ y, signed x = .done y := by
  by_cases h : -2 ^ 63 ≤ x ∧ x < 2 ^ 63
  · exact Or.inr ⟨x, signed_of_range h.1 h.2⟩
  · exact Or.inl (signed_of_not_range h)

/-- The count adds one for the root and two for a pair. -/
theorem count_weighs (n : ℕ) :
    Weighs (fun r _ root => if root then signed (r + 1) else signed (r + 2)) (fun _ => 1) n := by
  intro r i _ _
  unfold share
  by_cases hroot : i * i = n
  · rw [if_pos hroot, hroot, decide_eq_true rfl]
    dsimp only
    rw [if_pos rfl, Int.natCast_add]
    rfl
  · have hne : ¬ ((i * i : ℕ) : ℤ) = n := fun h => hroot (by exact_mod_cast h)
    rw [if_neg hroot, decide_eq_false hne]
    dsimp only
    rw [if_neg Bool.false_ne_true, Int.natCast_add]
    rfl

/-- The sum adds a divisor and its partner. -/
theorem sum_weighs {a : Int64} (ha : a.toInt = n) (hpos : 0 < n) (hlast : n < lastSquare) :
    Weighs (fun r i root => if root then signed (r + i)
      else do
        let q ← quotient a.toInt i
        let s ← signed (i + q)
        signed (r + s)) id n := by
  intro r i hi hd
  have hn : n < 2 ^ 63 := hlast.trans (by decide)
  unfold share
  by_cases hroot : i * i = n
  · rw [if_pos hroot, hroot, decide_eq_true rfl]
    dsimp only
    rw [if_pos rfl, Int.natCast_add]
    rfl
  · have hne : ¬ ((i * i : ℕ) : ℤ) = n := fun h => hroot (by exact_mod_cast h)
    have hle := pair_le hi hpos hd
    have hpair : signed ((i : ℤ) + ((n / i : ℕ) : ℤ)) = .done ((i + n / i : ℕ) : ℤ) := by
      rw [← Int.natCast_add]
      apply signed_natCast
      unfold lastSquare at hlast
      omega
    rw [if_neg hroot, decide_eq_false hne]
    dsimp only
    rw [if_neg Bool.false_ne_true, ha, quotient_of_pos hi hn, Outcome.done_bind, hpair,
      Outcome.done_bind, ← Int.natCast_add]
    rfl

end Divisors

/-! ## Prime factors one by one -/

section Primes

/-- All factors are taken out. -/
theorem divideOut_done (hp : 2 ≤ p) (hm : 0 < m) (hlt : m < 2 ^ 63) :
    ∃ k m', divideOut p m = .done ((m' : ℕ) : ℤ) ∧ m = p ^ k * m' ∧ ¬ p ∣ m' := by
  have hloop : ∃ x, divideOut p m = .done x ∧
      ∃ k m' : ℕ, x = (m' : ℤ) ∧ m = p ^ k * m' ∧ ¬ p ∣ m' := by
    apply Outcome.loop_of_measure
      (fun s => ∃ k m' : ℕ, s = (m' : ℤ) ∧ m = p ^ k * m' ∧ 0 < m' ∧ m' ≤ m)
      (fun s => s.toNat) (Nat.lt_succ_self _) ⟨0, m, rfl, by rw [pow_zero, one_mul], hm, le_rfl⟩
    rintro s ⟨k, m', rfl, hsplit, hpos, hle⟩
    unfold divideOutTurn
    rw [remainderOf_of_pos (by omega) (by omega), Outcome.done_bind]
    by_cases hd : p ∣ m'
    · have hrest : ((m' % p : ℕ) : ℤ) = 0 := by rw [Nat.mod_eq_zero_of_dvd hd]; rfl
      rw [if_pos hrest, quotient_of_pos (by omega) (by omega)]
      refine Or.inl ⟨_, rfl, ⟨k + 1, m' / p, rfl, ?_, ?_, ?_⟩, ?_⟩
      · rw [pow_succ, mul_assoc, Nat.mul_div_cancel' hd, hsplit]
      · exact Nat.div_pos (Nat.le_of_dvd hpos hd) (by omega)
      · exact (Nat.div_le_self m' p).trans hle
      · simp only [Int.toNat_natCast]
        exact Nat.div_lt_self hpos hp
    · have hrest : ¬ ((m' % p : ℕ) : ℤ) = 0 := by
        intro h0
        exact hd (Nat.dvd_of_mod_eq_zero (by omega))
      rw [if_neg hrest]
      exact Or.inr ⟨_, rfl, k, m', rfl, hsplit, hd⟩
  obtain ⟨x, hx, k, m', rfl, hsplit, hout⟩ := hloop
  exact ⟨k, m', hx, hsplit, hout⟩

/-- `fold` takes one more prime factor into a value `V` of the factors found so far. -/
def TakesPrimes (fold : ℤ → ℤ → Outcome ℤ) (V : Finset ℕ → ℕ) (n : ℕ) : Prop :=
  ∀ (s : Finset ℕ) (p : ℕ), s ⊆ n.primeFactors → p ∈ n.primeFactors → p ∉ s →
    fold (V s) p = .done (V (insert p s) : ℤ)

/-- The loop has a candidate `i` and what is left of `n`, without smaller prime factors. -/
structure Stripping (V : Finset ℕ → ℕ) (n : ℕ) (s : ℤ × ℤ × ℤ) (i m : ℕ) : Prop where
  state : s = ((i : ℤ), (m : ℤ), (V (foundPrimes n m) : ℤ))
  bound : 2 ≤ i ∧ i ≤ 3037000499
  pos : 0 < m
  dvd : m ∣ n
  rough : Rough i m

variable {fold : ℤ → ℤ → Outcome ℤ} {V : Finset ℕ → ℕ}

theorem foundPrimes_subset (n m : ℕ) : foundPrimes n m ⊆ n.primeFactors :=
  Finset.sdiff_subset

/-- The value with one more factor taken out of what is left. -/
theorem fold_found (hf : TakesPrimes fold V n) (hpos : 0 < n) {k : ℕ} (hd : p ^ k * m ∣ n)
    (hp : p.Prime) (hk : k ≠ 0) (hout : ¬ p ∣ m) :
    fold (V (foundPrimes n (p ^ k * m))) p = .done (V (foundPrimes n m) : ℤ) := by
  obtain ⟨hinsert, hnew⟩ := foundPrimes_insert hpos.ne' hd hp hk hout
  have hpn : p ∈ n.primeFactors :=
    Nat.mem_primeFactors.mpr ⟨hp, ((dvd_pow_self p hk).mul_right m).trans hd, hpos.ne'⟩
  rw [hinsert]
  exact hf _ p (foundPrimes_subset n _) hpn hnew

theorem primeTurn_done (hf : TakesPrimes fold V n) (hlast : n < lastSquare) (hpos : 0 < n)
    {s : ℤ × ℤ × ℤ} (h : Stripping V n s i m) (hle : i * i ≤ m) :
    ∃ s' m', primeTurn fold s = .done (.inl s') ∧ Stripping V n s' (i + 1) m' := by
  obtain ⟨rfl, ⟨h2, hbound⟩, hm, hd, hrough⟩ := h
  have hmn := Nat.le_of_dvd hpos hd
  have hlt : m < 2 ^ 63 := (hmn.trans_lt hlast).trans (by decide)
  have hnext := candidate_lt hlast (hle.trans hmn)
  unfold primeTurn
  dsimp only
  rw [signed_candidate hbound, Outcome.done_bind, if_pos (by omega),
    remainderOf_of_pos (by omega) hlt, Outcome.done_bind]
  by_cases hdvd : i ∣ m
  · obtain ⟨k, m', hrun, hsplit, hout⟩ := divideOut_done h2 hm hlt
    have hk : k ≠ 0 := by
      rintro rfl
      rw [pow_zero, one_mul] at hsplit
      exact hout (hsplit ▸ hdvd)
    have hm' : 0 < m' := Nat.pos_of_ne_zero fun h0 => hout (h0 ▸ dvd_zero i)
    have hdvd' : m' ∣ m := ⟨i ^ k, by rw [hsplit, mul_comm]⟩
    have hfold : fold (V (foundPrimes n m)) i = .done (V (foundPrimes n m') : ℤ) := by
      rw [hsplit]
      exact fold_found hf hpos (hsplit ▸ hd) (hrough.prime_of_dvd h2 hdvd) hk hout
    have hrest : ((m % i : ℕ) : ℤ) = 0 := by rw [Nat.mod_eq_zero_of_dvd hdvd]; rfl
    rw [if_pos hrest, hfold, Outcome.done_bind, hrun, Outcome.done_bind, signed_next hbound]
    have hrough' : Rough i m' := fun q hq hqd => hrough q hq (hqd.trans hdvd')
    exact ⟨_, m', rfl, rfl, ⟨by omega, hnext⟩, hm', hdvd'.trans hd, hrough'.succ hout⟩
  · have hrest : ¬ ((m % i : ℕ) : ℤ) = 0 := by
      intro h0
      exact hdvd (Nat.dvd_of_mod_eq_zero (by exact_mod_cast h0))
    rw [if_neg hrest, signed_next hbound]
    exact ⟨_, m, rfl, rfl, ⟨by omega, hnext⟩, hm, hd, hrough.succ hdvd⟩

/-- The loop finds every prime factor. -/
theorem overPrimes_done (hf : TakesPrimes fold V n) (hpos : 0 < n) (hlast : n < lastSquare) :
    overPrimes fold n (V ∅) = .done (V n.primeFactors : ℤ) := by
  have hloop : ∃ x : ℤ × ℤ, Outcome.loop (primeTurn fold) ((n : ℤ).toNat + 1)
      (2, (n : ℤ), (V ∅ : ℤ)) = .done x ∧
      ∃ m : ℕ, x = ((m : ℤ), (V (foundPrimes n m) : ℤ)) ∧ m ∣ n ∧ (m = 1 ∨ m.Prime) := by
    apply Outcome.loop_of_measure (fun s => ∃ i m, Stripping V n s i m)
      (fun s => n + 2 - s.1.toNat) ?_ ⟨2, n, ?_⟩
    · rintro s ⟨i, m, h⟩
      have hmn := Nat.le_of_dvd hpos h.dvd
      by_cases hle : i * i ≤ m
      · obtain ⟨s', m', hstep, hnext⟩ := primeTurn_done hf hlast hpos h hle
        refine Or.inl ⟨s', hstep, ⟨i + 1, m', hnext⟩, ?_⟩
        have hin : i ≤ n := (Nat.le_mul_self i).trans (hle.trans hmn)
        rw [hnext.state, h.state]
        simp only [Int.toNat_natCast]
        omega
      · obtain ⟨rfl, ⟨h2, hbound⟩, hm, hd, hrough⟩ := h
        refine Or.inr ⟨_, ?_, m, rfl, hd, ?_⟩
        · unfold primeTurn
          dsimp only
          rw [signed_candidate hbound, Outcome.done_bind, if_neg (by omega)]
          rfl
        · by_cases hone : m = 1
          · exact Or.inl hone
          · exact Or.inr (hrough.prime (by omega) (by omega))
    · rw [Int.toNat_natCast, show ((2 : ℤ), (n : ℤ), (V ∅ : ℤ)).1.toNat = 2 from rfl]
      omega
    · refine ⟨?_, ⟨le_rfl, by decide⟩, hpos, dvd_rfl, fun q hq _ => hq.two_le⟩
      rw [foundPrimes_self]
      rfl
  obtain ⟨x, hx, m, rfl, hd, hm⟩ := hloop
  unfold overPrimes
  rw [hx, Outcome.done_bind]
  dsimp only
  rcases hm with rfl | hm
  · rw [if_neg (by decide), foundPrimes_one]
    rfl
  · have htwo := hm.two_le
    have hfold := fold_found (m := 1) (k := 1) hf hpos (by rwa [pow_one, mul_one]) hm
      one_ne_zero hm.not_dvd_one
    rw [pow_one, mul_one, foundPrimes_one] at hfold
    rw [if_pos (by omega)]
    exact hfold

end Primes

/-! ## The four functions -/

/-- Euler's function counts the numbers up to `n` without a common factor. -/
theorem totient_done {a : Int64} (ha : a.toInt = n) (hpos : 0 < n) (hlast : n < lastSquare) :
    i64Totient a = .done (((Finset.Icc 1 n).filter n.Coprime).card : ℤ) := by
  have hcount : ((Finset.Icc 1 n).filter n.Coprime).card = n.totient := by
    rw [← Nat.filter_coprime_Ico_eq_totient n 1]
    congr 2
    ext k
    rw [Finset.mem_Icc, Finset.mem_Ico]
    omega
  have hn : n < 2 ^ 63 := hlast.trans (by decide)
  have hf : TakesPrimes (fun r p => do
      let q ← quotient r p
      signed (r - q)) (totientPart n) n := by
    intro s p hs hp hnew
    obtain ⟨hd, hnext⟩ := totientPart_insert hs hp hnew
    have hle := totientPart_le n hs
    have hdiv := Nat.div_le_self (totientPart n s) p
    dsimp only
    rw [quotient_of_pos (Nat.prime_of_mem_primeFactors hp).pos (hle.trans_lt hn),
      Outcome.done_bind, ← hnext, ← Int.natCast_sub hdiv]
    exact signed_natCast ((Nat.sub_le _ _).trans_lt (hle.trans_lt hn))
  have hrun := overPrimes_done hf hpos hlast
  rw [totientPart_empty, totientPart_primeFactors] at hrun
  unfold i64Totient
  rw [ha, if_neg (by omega), hcount]
  exact hrun

/-- The radical is the product of the prime factors. -/
theorem radical_done {a : Int64} (ha : a.toInt = n) (hpos : 0 < n) (hlast : n < lastSquare) :
    i64Radical a = .done ((∏ p ∈ n.primeFactors, p : ℕ) : ℤ) := by
  have hn : n < 2 ^ 63 := hlast.trans (by decide)
  have hf : TakesPrimes (fun r p => signed (r * p)) (fun s => ∏ p ∈ s, p) n := by
    intro s p hs hp hnew
    have hle := Nat.le_of_dvd hpos (prod_primes_dvd (Finset.insert_subset hp hs))
    dsimp only
    rw [← Int.natCast_mul, Finset.prod_insert hnew, mul_comm p]
    rw [Finset.prod_insert hnew, mul_comm] at hle
    exact signed_natCast (by omega)
  have hrun := overPrimes_done hf hpos hlast
  unfold i64Radical
  rw [ha, if_neg (by omega)]
  exact hrun

/-- The builtins compute the functions, and nothing overflows. -/
structure DivisorFunctionsExact (a : Int64) : Prop where
  count : i64DivisorCount a = .done (a.toInt.toNat.divisors.card : ℤ)
  sum : ∃ x, i64DivisorSum a = .done x ∧
    (∑ d ∈ a.toInt.toNat.divisors, d < 2 ^ 63 → x = ((∑ d ∈ a.toInt.toNat.divisors, d : ℕ) : ℤ))
  totient : i64Totient a =
    .done (((Finset.Icc 1 a.toInt.toNat).filter a.toInt.toNat.Coprime).card : ℤ)
  radical : i64Radical a = .done ((∏ p ∈ a.toInt.toNat.primeFactors, p : ℕ) : ℤ)

/-- The number is below the last square and the sum of its divisors is in `int64_t`. -/
def DivisorsFit (a : Int64) : Prop :=
  a.toInt < lastSquare ∧ ∑ d ∈ a.toInt.toNat.divisors, d < 2 ^ 63

/-- The functions are right exactly below the last square, where the sum fits. -/
theorem divisorFunctions_iff (a : Int64) (ha : 0 < a.toInt) :
    DivisorFunctionsExact a ↔ DivisorsFit a := by
  obtain ⟨n, hn⟩ : ∃ n : ℕ, a.toInt = n := ⟨a.toInt.toNat, by omega⟩
  have hto : a.toInt.toNat = n := by omega
  have hcard : ∑ d ∈ n.divisors, 1 = n.divisors.card :=
    (Finset.sum_const_nat fun _ _ => rfl).trans (mul_one _)
  constructor
  · rintro ⟨hcount, ⟨x, hsum, -⟩, -, -⟩
    have hlast : n < lastSquare := by
      apply Classical.byContradiction
      intro hover
      have hstuck : i64DivisorCount a = .stuck := by
        apply overDivisors_stuck hn (Nat.le_of_not_lt hover)
        intro r i root
        cases root
        · exact signed_cases _
        · exact signed_cases _
      rw [hstuck] at hcount
      cases hcount
    refine ⟨by omega, ?_⟩
    rw [hto]
    exact sum_lt_of_done hn (sum_weighs hn (by omega) hlast) (by omega) hlast hsum
  · rintro ⟨hlast, hsum⟩
    have hlast' : n < lastSquare := by omega
    have hpos : 0 < n := by omega
    have hle : n.divisors.card ≤ n := Nat.card_divisors_le_self n
    rw [hto] at hsum
    constructor
    · rw [hto, ← hcard]
      apply overDivisors_done hn (count_weighs n) hpos hlast'
      rw [hcard]
      exact (hle.trans_lt hlast').trans (by decide)
    · rw [hto]
      exact ⟨_, overDivisors_done hn (sum_weighs hn hpos hlast') hpos hlast' hsum, fun _ => rfl⟩
    · rw [hto]
      exact totient_done hn hpos hlast'
    · rw [hto]
      exact radical_done hn hpos hlast'

/-- Twelve. -/
theorem divisorFunctions_twelve : 0 < (12 : Int64).toInt ∧
    (DivisorFunctionsExact 12 ↔ DivisorsFit 12) :=
  ⟨by decide, divisorFunctions_iff 12 (by decide)⟩

/-- The greatest number is above the last square. -/
theorem divisorFunctions_inexact : ¬ ∀ a : Int64, 0 < a.toInt → DivisorFunctionsExact a := by
  intro h
  have hcount := (h greatest (by decide)).count
  have hstuck : i64DivisorCount greatest = .stuck := by
    apply overDivisors_stuck (n := 9223372036854775807) (by decide) (by decide)
    intro r i root
    cases root
    · exact signed_cases _
    · exact signed_cases _
  rw [hstuck] at hcount
  cases hcount

end Vani.Analysis
