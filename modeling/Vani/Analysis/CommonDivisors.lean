import Vani.Library.ExtendedEuclid
import Vani.Analysis.Powers

/-!
# Greatest common divisors and inverses

`gcd` and `lcm` work on absolute values, so they are right without the least number, `lcm` as
long as its result is in `int64_t`. `mod_inverse` adds the modulus to a remainder before and
after the loop, and is right where both sums are in `int64_t`; nothing overflows in between.
-/

set_option autoImplicit false

namespace Vani.Analysis

open Vani.Library Vani.Backend
open Vec (signed)

/-! ## Euclid's algorithm -/

section Euclid

variable {k l : ℕ} {i j : Int64}

/-- The loop keeps the common divisors. -/
theorem euclid_done (hk : k < 2 ^ 63) (hl : l < 2 ^ 63) :
    euclid k l = .done (Nat.gcd k l : ℤ) := by
  have hloop : ∃ r, euclid k l = .done r ∧ r = Nat.gcd k l := by
    apply Outcome.loop_of_measure
      (fun s => ∃ x y : ℕ, s = ((x : ℤ), (y : ℤ)) ∧ x < 2 ^ 63 ∧ y < 2 ^ 63 ∧
        Nat.gcd x y = Nat.gcd k l)
      (fun s => s.2.toNat) (Nat.lt_succ_self _) ⟨k, l, rfl, hk, hl, rfl⟩
    rintro s ⟨x, y, rfl, hx, hy, hgcd⟩
    unfold gcdTurn
    dsimp only
    by_cases h0 : y = 0
    · subst h0
      refine Or.inr ⟨x, if_neg (fun hne => hne rfl), ?_⟩
      rw [← hgcd, Nat.gcd_zero_right]
    · have hrest : x % y < y := Nat.mod_lt _ (Nat.pos_of_ne_zero h0)
      refine Or.inl ⟨_, ?_, ⟨y, x % y, rfl, hy, by omega, ?_⟩, ?_⟩
      · rw [if_pos (by omega), remainder_emod (by omega) (by omega) (by omega)]
        rfl
      · rw [← hgcd, Nat.gcd_comm x y, Nat.gcd_rec y x, Nat.gcd_comm]
      · exact hrest
  obtain ⟨r, hrun, rfl⟩ := hloop
  exact hrun

/-- Neither argument is the least number. -/
def NoLeast (i j : Int64) : Prop := i.toInt ≠ -2 ^ 63 ∧ j.toInt ≠ -2 ^ 63

/-- Both absolute values, or none. -/
theorem magnitudes_cases {ρ : Type} (i j : Int64) (f : ℤ → ℤ → Outcome ρ) :
    (NoLeast i j ∧ (do let x ← magnitude i.toInt; let y ← magnitude j.toInt; f x y) =
      f (i.toInt.natAbs : ℤ) (j.toInt.natAbs : ℤ)) ∨
    (¬ NoLeast i j ∧
      (do let x ← magnitude i.toInt; let y ← magnitude j.toInt; f x y) = .stuck) := by
  have hi := toInt_range i
  have hj := toInt_range j
  by_cases hi' : i.toInt = -2 ^ 63
  · refine Or.inr ⟨fun h => h.1 hi', ?_⟩
    rw [hi', magnitude_least]
    rfl
  · rw [magnitude_done (by omega) (by omega), Outcome.done_bind]
    by_cases hj' : j.toInt = -2 ^ 63
    · refine Or.inr ⟨fun h => h.2 hj', ?_⟩
      rw [hj', magnitude_least]
      rfl
    · refine Or.inl ⟨⟨hi', hj'⟩, ?_⟩
      rw [magnitude_done (by omega) (by omega), Outcome.done_bind]

/-- `gcd` is right whenever the result fits, and nothing overflows. -/
structure GcdExact (i j : Int64) : Prop where
  value : (Int.gcd i.toInt j.toInt : ℤ) < 2 ^ 63 →
    i64Gcd i j = .done (Int.gcd i.toInt j.toInt : ℤ)
  defined : i64Gcd i j ≠ .stuck

/-- `gcd` is right exactly without the least number. -/
theorem gcdExact_iff (i j : Int64) : GcdExact i j ↔ NoLeast i j := by
  have hi := toInt_range i
  have hj := toInt_range j
  have hcases := magnitudes_cases i j euclid
  constructor
  · intro h
    rcases hcases with ⟨hno, -⟩ | ⟨-, hstuck⟩
    · exact hno
    · exact absurd hstuck h.defined
  · intro hno
    have hrun : i64Gcd i j = .done (Int.gcd i.toInt j.toInt : ℤ) := by
      rcases hcases with ⟨-, heq⟩ | ⟨hleast, -⟩
      · refine heq.trans (euclid_done ?_ ?_)
        · have h := hno.1
          omega
        · have h := hno.2
          omega
      · exact absurd hno hleast
    refine ⟨fun _ => hrun, fun hstuck => ?_⟩
    rw [hrun] at hstuck
    cases hstuck

/-- `lcm` is right whenever the result fits, and nothing overflows. -/
structure LcmExact (i j : Int64) : Prop where
  value : (Int.lcm i.toInt j.toInt : ℤ) < 2 ^ 63 →
    i64Lcm i j = .done (Int.lcm i.toInt j.toInt : ℤ)
  defined : i64Lcm i j ≠ .stuck

/-- A factor is zero, or the least common multiple is computed from numbers in `int64_t`. -/
def LcmFits (i j : Int64) : Prop :=
  i.toInt = 0 ∨ j.toInt = 0 ∨ NoLeast i j ∧ (Int.lcm i.toInt j.toInt : ℤ) < 2 ^ 63

/-- The least common multiple of two absolute values. -/
theorem lcm_rest (hk : 0 < k) (hk' : k < 2 ^ 63) (hl' : l < 2 ^ 63) :
    (do let g ← euclid k l; let q ← quotient k g; signed (q * l)) =
      signed ((Nat.lcm k l : ℕ) : ℤ) := by
  have hg : 0 < Nat.gcd k l := Nat.gcd_pos_of_pos_left l hk
  have hlcm : k / Nat.gcd k l * l = Nat.lcm k l := by
    rw [Nat.lcm_eq_mul_div, Nat.div_mul_right_comm (Nat.gcd_dvd_left k l)]
  rw [euclid_done hk' hl', Outcome.done_bind, quotient_of_pos hg hk', Outcome.done_bind, ← hlcm,
    Int.natCast_mul]

theorem lcmExact_iff (i j : Int64) : LcmExact i j ↔ LcmFits i j := by
  have hi := toInt_range i
  have hj := toInt_range j
  by_cases h0 : i.toInt = 0 ∨ j.toInt = 0
  · have hlcm : Int.lcm i.toInt j.toInt = 0 := by
      rcases h0 with h0 | h0
      · rw [h0, Int.zero_lcm]
      · rw [h0, Int.lcm_zero]
    have hrun : i64Lcm i j = .done 0 := by
      unfold i64Lcm
      rw [if_pos h0]
      rfl
    refine iff_of_true ⟨fun _ => ?_, ?_⟩ (h0.imp_right Or.inl)
    · rw [hrun, hlcm]
      rfl
    · rw [hrun]
      exact fun hstuck => by cases hstuck
  · have hrun : i64Lcm i j = (do
        let x ← magnitude i.toInt
        let y ← magnitude j.toInt
        let g ← euclid x y
        let q ← quotient x g
        signed (q * y)) := by
      unfold i64Lcm
      rw [if_neg h0]
    have hcases := magnitudes_cases i j fun x y => do
      let g ← euclid x y
      let q ← quotient x g
      signed (q * y)
    rcases hcases with ⟨hno, heq⟩ | ⟨hleast, hstuck⟩
    · have hrest : i64Lcm i j = signed (Int.lcm i.toInt j.toInt : ℤ) := by
        rw [hrun, heq]
        exact lcm_rest (by omega) (by have h := hno.1; omega)
          (by have h := hno.2; omega)
      by_cases hfits : (Int.lcm i.toInt j.toInt : ℤ) < 2 ^ 63
      · have hdone := hrest.trans (signed_of_bounds (Int.natCast_nonneg _) hfits)
        refine iff_of_true ⟨fun _ => hdone, ?_⟩ (Or.inr (Or.inr ⟨hno, hfits⟩))
        rw [hdone]
        exact fun hstuck => by cases hstuck
      · refine iff_of_false (fun h => ?_) ?_
        · exact h.defined (hrest.trans (signed_of_not_range fun h => hfits h.2))
        · rintro (h | h | h)
          · exact h0 (Or.inl h)
          · exact h0 (Or.inr h)
          · exact hfits h.2
    · refine iff_of_false (fun h => ?_) ?_
      · exact h.defined (hrun.trans hstuck)
      · rintro (h | h | h)
        · exact h0 (Or.inl h)
        · exact h0 (Or.inr h)
        · exact hleast h.1

end Euclid

/-! ## Inverses -/

section Inverse

variable {a m : ℤ}

/-- The state of the loop follows the algorithm. -/
def Following (m a : ℤ) (s : Extended) : Prop := Bezout m a s.g s.x s.og s.ox

theorem extendedTurn_done {s : Extended} (hm : m < 2 ^ 63) (h : Following m a s)
    (hpos : s.og ≠ 0) :
    ∃ s', extendedTurn s = .done (.inl s') ∧ Following m a s' ∧ s'.og.toNat < s.og.toNat := by
  obtain ⟨g, x, og, ox⟩ := s
  have hb : Bezout m a g x og ox := h
  have hpos' : 0 < og := lt_of_le_of_ne hb.order.1 (Ne.symm hpos)
  have hg : 0 < g := hpos'.trans hb.order.2
  have hle := hb.le_modulus
  obtain ⟨hp0, hp, hy, hx⟩ := hb.turn_bounds hpos'
  rw [abs_le] at hy hx
  have hq : quotient g og = .done (g / og) := by
    have hdiv : Divides g og := ⟨by omega, hpos, by omega⟩
    rw [hdiv.quotient_done, Int.tdiv_eq_ediv_of_nonneg hg.le]
  have hnext := hb.turn hpos'
  refine ⟨⟨og, ox, g - g / og * og, x - g / og * ox⟩, ?_, hnext, ?_⟩
  · unfold extendedTurn
    rw [if_pos hpos]
    dsimp only
    rw [hq, Outcome.done_bind, signed_of_range (by omega) (by omega), Outcome.done_bind,
      signed_of_range (by omega) (by omega), Outcome.done_bind,
      signed_of_range (by omega) (by omega), Outcome.done_bind,
      signed_of_range (by omega) (by omega)]
    rfl
  · have hlt := hnext.order.2
    have h0 := hnext.order.1
    show (g - g / og * og).toNat < og.toNat
    omega

/-- The loop ends with the greatest common divisor and, where it is one, a small inverse. -/
theorem extended_done (hm : 1 < m) (hm' : m < 2 ^ 63) :
    ∃ r : ℤ × ℤ, Outcome.loop extendedTurn ((a % m).toNat + 1) ⟨m, 0, a % m, 1⟩ = .done r ∧
      r.1 = Int.gcd a m ∧ (r.1 = 1 → a * r.2 ≡ 1 [ZMOD m] ∧ 2 * |r.2| ≤ m) := by
  have hstart : Following m a ⟨m, 0, a % m, 1⟩ := bezout_start (by omega)
  apply Outcome.loop_of_measure (Following m a) (fun s => s.og.toNat) (Nat.lt_succ_self _) hstart
  intro s hs
  by_cases h0 : s.og = 0
  · obtain ⟨g, x, og, ox⟩ := s
    have hb : Bezout m a g x og ox := hs
    dsimp only at h0
    subst h0
    refine Or.inr ⟨(g, x), if_neg fun hne => hne rfl, hb.end_gcd, ?_⟩
    intro hone
    have hg : g = 1 := hone
    subst hg
    exact hb.inverse
  · exact Or.inl (extendedTurn_done hm' hs h0)

/-- The inverse modulo `m`, or zero. -/
def InverseExact (a m : Int64) : Prop :=
  ∃ x, i64ModInverse a m = .done x ∧
    (Int.gcd a.toInt m.toInt = 1 →
      0 ≤ x ∧ x < m.toInt ∧ a.toInt * x ≡ 1 [ZMOD m.toInt]) ∧
    (Int.gcd a.toInt m.toInt ≠ 1 → x = 0)

/-- The modulus can be added to the remainder of the argument, and to every inverse of at most
half the modulus. -/
def InverseFits (a m : Int64) : Prop :=
  a.toInt.tmod m.toInt + m.toInt < 2 ^ 63 ∧
    ∀ y : ℤ, 2 * y ≤ m.toInt → a.toInt * y ≡ 1 [ZMOD m.toInt] → y + m.toInt < 2 ^ 63

variable {i n : Int64}

theorem residue_stuck {x m : ℤ} (hlo : -2 ^ 63 ≤ x) (hhi : x < 2 ^ 63) (hm : 0 < m)
    (hsum : ¬ x.tmod m + m < 2 ^ 63) : residueOf x m = .stuck := by
  have hdiv : Divides x m := ⟨⟨hlo, hhi⟩, by omega, by omega⟩
  unfold residueOf
  rw [hdiv.remainder_done, Outcome.done_bind, signed_of_not_range fun h => hsum h.2]
  rfl

/-- A number smaller than the modulus is its own remainder. -/
theorem tmod_of_small {x m : ℤ} (hm : 1 < m) (hx : 2 * |x| ≤ m) : x.tmod m = x := by
  have hsmall := abs_le.mp (show |x| ≤ m / 2 by omega)
  rcases le_total 0 x with h0 | h0
  · rw [Int.tmod_eq_emod_of_nonneg h0, Int.emod_eq_of_lt h0 (by omega)]
  · have hneg : (-x).tmod m = -x := by
      rw [Int.tmod_eq_emod_of_nonneg (by omega), Int.emod_eq_of_lt (by omega) (by omega)]
    rw [Int.neg_tmod] at hneg
    omega

theorem inverse_exact (hm : 1 < n.toInt) (h : InverseFits i n) : InverseExact i n := by
  have hi := toInt_range i
  have hn := toInt_range n
  obtain ⟨hres, hinv⟩ := h
  obtain ⟨⟨g, x⟩, hrun, hg, hx⟩ := extended_done (a := i.toInt) hm hn.2
  dsimp only at hg hx
  unfold InverseExact i64ModInverse
  rw [if_neg (by omega), residue_done hi.1 hi.2 (by omega) hres, Outcome.done_bind, hrun,
    Outcome.done_bind]
  dsimp only
  by_cases hone : g = 1
  · obtain ⟨hmul, hhalf⟩ := hx hone
    have hsmall := abs_le.mp (show |x| ≤ n.toInt / 2 by omega)
    have hfits := hinv x (by omega) hmul
    have hdone : residueOf x n.toInt = .done (x % n.toInt) := by
      apply residue_done (by omega) (by omega) (by omega)
      rw [tmod_of_small hm hhalf]
      exact hfits
    rw [if_neg (fun hne => hne hone), hdone]
    refine ⟨_, rfl, fun _ => ⟨Int.emod_nonneg _ (by omega), Int.emod_lt_of_pos _ (by omega), ?_⟩,
      fun hne => absurd (by omega) hne⟩
    exact ((Int.mod_modEq x n.toInt).mul_left _).trans hmul
  · rw [if_pos hone]
    exact ⟨0, rfl, fun hgcd => absurd (by omega) hone, fun _ => rfl⟩

theorem inverse_stuck (hm : 1 < n.toInt) (h : ¬ InverseFits i n) :
    i64ModInverse i n = .stuck := by
  have hi := toInt_range i
  have hn := toInt_range n
  unfold i64ModInverse
  rw [if_neg (by omega)]
  by_cases hres : i.toInt.tmod n.toInt + n.toInt < 2 ^ 63
  · obtain ⟨y, hy, hmul, hover⟩ : ∃ y : ℤ, 2 * y ≤ n.toInt ∧
        i.toInt * y ≡ 1 [ZMOD n.toInt] ∧ ¬ y + n.toInt < 2 ^ 63 := by
      apply Classical.byContradiction
      intro hno
      refine h ⟨hres, fun y hy hmul => ?_⟩
      apply Classical.byContradiction
      exact fun hover => hno ⟨y, hy, hmul, hover⟩
    obtain ⟨⟨g, x⟩, hrun, hg, hx⟩ := extended_done (a := i.toInt) hm hn.2
    dsimp only at hg hx
    have hone : g = 1 := by
      obtain ⟨k, hk⟩ := hmul.dvd
      have hdvd := dvd_add (dvd_mul_of_dvd_left (Int.gcd_dvd_left i.toInt n.toInt) y)
        (dvd_mul_of_dvd_left (Int.gcd_dvd_right i.toInt n.toInt) k)
      rw [← hk, add_sub_cancel] at hdvd
      rw [hg]
      exact Int.eq_one_of_dvd_one (Int.natCast_nonneg _) hdvd
    obtain ⟨hmul', hhalf⟩ := hx hone
    have hsmall := abs_le.mp (show |x| ≤ n.toInt / 2 by omega)
    have hsame : x = y := inverse_unique (by omega) hmul' hmul hhalf (by omega) hy
    rw [residue_done hi.1 hi.2 (by omega) hres, Outcome.done_bind, hrun, Outcome.done_bind]
    dsimp only
    rw [if_neg (fun hne => hne hone)]
    apply residue_stuck (by omega) (by omega) (by omega)
    rw [tmod_of_small hm hhalf, hsame]
    exact hover
  · rw [residue_stuck hi.1 hi.2 (by omega) hres]
    rfl

theorem inverseExact_iff (a m : Int64) (hm : 1 < m.toInt) :
    InverseExact a m ↔ InverseFits a m := by
  constructor
  · rintro ⟨x, hx, -⟩
    apply Classical.byContradiction
    intro hover
    rw [inverse_stuck hm hover] at hx
    cases hx
  · exact inverse_exact hm

end Inverse

/-- The three builtins are right exactly where the sums and absolute values they take are in
`int64_t`. -/
theorem commonDivisors_iff (a b c m : Int64) (hm : 1 < m.toInt) :
    (GcdExact a b ↔ NoLeast a b) ∧ (LcmExact a b ↔ LcmFits a b) ∧
      (InverseExact c m ↔ InverseFits c m) :=
  ⟨gcdExact_iff a b, lcmExact_iff a b, inverseExact_iff c m hm⟩

/-- `gcd(12, -18)`, `lcm(12, -18)` and the inverse of three modulo seven. -/
theorem commonDivisors_twelve : 1 < (7 : Int64).toInt ∧
    (GcdExact 12 (-18) ↔ NoLeast 12 (-18)) ∧ (LcmExact 12 (-18) ↔ LcmFits 12 (-18)) ∧
      (InverseExact 3 7 ↔ InverseFits 3 7) :=
  ⟨by decide, commonDivisors_iff 12 (-18) 3 7 (by decide)⟩

/-- The least `i64`. -/
def least : Int64 := -9223372036854775808

/-- The least number has no absolute value. -/
theorem commonDivisors_inexact : ¬ ∀ a b c m : Int64, 1 < m.toInt →
    GcdExact a b ∧ LcmExact a b ∧ InverseExact c m := by
  intro h
  have hdefined := (h least 6 0 2 (by decide)).1.defined
  have hstuck : i64Gcd least 6 = .stuck := by decide
  exact hdefined hstuck

end Vani.Analysis
