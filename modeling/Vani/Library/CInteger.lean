import Mathlib.Data.Int.Bitwise
import Mathlib.Tactic.Ring
import Mathlib.Tactic.Positivity

/-!
# Fixed-width integers and the arithmetic of C

Integer types given by signedness and width, reduction into them, and the rules by which C
computes on them: operands narrower than `int` are promoted to `int`, two operands are
brought to a common type, overflow of a signed type is undefined and of an unsigned type
wraps. `int` has 32 bits, and negative numbers are in two's complement.
-/

set_option autoImplicit false

namespace Vani.Library

/-- An integer type. -/
structure IntType where
  signed : Bool
  bits : Nat
  deriving DecidableEq

namespace IntType

/-- The least value. -/
def lo (t : IntType) : Int := if t.signed then -2 ^ (t.bits - 1) else 0

/-- The greatest value. -/
def hi (t : IntType) : Int := if t.signed then 2 ^ (t.bits - 1) - 1 else 2 ^ t.bits - 1

/-- The type has the value. -/
def Fits (t : IntType) (x : Int) : Prop := t.lo ≤ x ∧ x ≤ t.hi

instance (t : IntType) (x : Int) : Decidable (t.Fits x) :=
  inferInstanceAs (Decidable (_ ∧ _))

/-- Reduction modulo the number of values. -/
def wrap (t : IntType) (x : Int) : Int :=
  if t.signed then Int.bmod x (2 ^ t.bits) else x % 2 ^ t.bits

theorem half_pow {n : Nat} (hn : 0 < n) : (2 ^ n : Nat) / 2 = 2 ^ (n - 1) := by
  obtain ⟨m, rfl⟩ : ∃ m, n = m + 1 := ⟨n - 1, by omega⟩
  rw [Nat.pow_succ, Nat.add_sub_cancel]
  omega

/-- Reduction gives a value of the type. -/
theorem wrap_fits {t : IntType} (ht : 0 < t.bits) (x : Int) : t.Fits (t.wrap x) := by
  unfold Fits wrap lo hi
  cases t.signed with
  | true =>
    have hpos : 0 < 2 ^ t.bits := Nat.two_pow_pos t.bits
    have hle := Int.le_bmod (x := x) hpos
    have hlt := Int.bmod_lt (x := x) hpos
    have hhalf := half_pow ht
    have heven : (2 ^ t.bits : Nat) = 2 * 2 ^ (t.bits - 1) := by
      obtain ⟨m, hm⟩ : ∃ m, t.bits = m + 1 := ⟨t.bits - 1, by omega⟩
      rw [hm, Nat.pow_succ, Nat.add_sub_cancel]
      ring
    simp only [if_true]
    have hcast : ((2 ^ (t.bits - 1) : Nat) : Int) = 2 ^ (t.bits - 1) := by push_cast; rfl
    omega
  | false =>
    have hpos : (0 : Int) < 2 ^ t.bits := by positivity
    have hnonneg := Int.emod_nonneg x (Int.ne_of_gt hpos)
    have hlt := Int.emod_lt_of_pos x hpos
    simp only [Bool.false_eq_true, if_false]
    omega

/-- A value of the type is left alone. -/
theorem wrap_of_fits {t : IntType} (ht : 0 < t.bits) {x : Int} (hx : t.Fits x) :
    t.wrap x = x := by
  unfold Fits lo hi at hx
  unfold wrap
  cases hs : t.signed with
  | true =>
    rw [hs] at hx
    simp only [if_true] at hx ⊢
    have hhalf := half_pow ht
    have heven : (2 ^ t.bits : Nat) = 2 * 2 ^ (t.bits - 1) := by
      obtain ⟨m, hm⟩ : ∃ m, t.bits = m + 1 := ⟨t.bits - 1, by omega⟩
      rw [hm, Nat.pow_succ, Nat.add_sub_cancel]
      ring
    have hcast : ((2 ^ (t.bits - 1) : Nat) : Int) = 2 ^ (t.bits - 1) := by push_cast; rfl
    exact Int.bmod_eq_of_le (by omega) (by omega)
  | false =>
    rw [hs] at hx
    simp only [Bool.false_eq_true, if_false] at hx ⊢
    exact Int.emod_eq_of_lt hx.1 (by omega)

/-- Reduction leaves exactly the values of the type alone. -/
theorem wrap_eq_iff {t : IntType} (ht : 0 < t.bits) {x : Int} : t.wrap x = x ↔ t.Fits x :=
  ⟨fun h => h ▸ wrap_fits ht x, wrap_of_fits ht⟩

end IntType

/-! ## The rules of C -/

/-- `int`. -/
def cInt : IntType := ⟨true, 32⟩

/-- `long`, the type of a literal that `int` does not have. -/
def cLong : IntType := ⟨true, 64⟩

/-- `unsigned long`. -/
def cUnsignedLong : IntType := ⟨false, 64⟩

/-- Types narrower than `int` are promoted to it. -/
def promote (t : IntType) : IntType := if t.bits < 32 then cInt else t

/-- The usual arithmetic conversions, on promoted types. -/
def common (a b : IntType) : IntType :=
  if a.signed = b.signed then (if a.bits < b.bits then b else a)
  else if a.signed then (if b.bits < a.bits then a else b)
  else (if a.bits < b.bits then b else a)

/-- A C value of integer type. -/
structure CValue where
  type : IntType
  value : Int
  deriving DecidableEq

/-- The value of a computation with the exact result `x`: undefined where a signed type
does not have it. -/
def result (t : IntType) (x : Int) : Option CValue :=
  if t.signed then (if t.Fits x then some ⟨t, x⟩ else none) else some ⟨t, t.wrap x⟩

/-- Conversion, explicit or implicit. -/
def convert (t : IntType) (a : CValue) : CValue := ⟨t, t.wrap a.value⟩

/-- An arithmetic operator, given by its exact result on the converted operands. -/
def arithmetic (exact : Int → Int → Option Int) (a b : CValue) : Option CValue :=
  let t := common (promote a.type) (promote b.type)
  (exact (t.wrap a.value) (t.wrap b.value)).bind (result t)

/-- `a % b`: undefined where the quotient is. -/
def remainder (quotient exact : Int → Int → Option Int) (a b : CValue) : Option CValue :=
  (arithmetic quotient a b).bind fun _ => arithmetic exact a b

/-- A comparison, on the converted operands; its result is an `int`. -/
def comparison (test : Int → Int → Bool) (a b : CValue) : CValue :=
  let t := common (promote a.type) (promote b.type)
  ⟨cInt, if test (t.wrap a.value) (t.wrap b.value) then 1 else 0⟩

/-- `a << b`: undefined for a count outside the width and for a negative left operand. -/
def shiftLeft (a b : CValue) : Option CValue :=
  let t := promote a.type
  if 0 ≤ b.value ∧ b.value < t.bits ∧ 0 ≤ a.value then result t (a.value * 2 ^ b.value.toNat)
  else none

/-- `a >> b`, arithmetic on negative values. -/
def shiftRight (a b : CValue) : Option CValue :=
  let t := promote a.type
  if 0 ≤ b.value ∧ b.value < t.bits then result t (a.value / 2 ^ b.value.toNat) else none

/-- Unary minus. -/
def negate (a : CValue) : Option CValue :=
  let t := promote a.type
  result t (-t.wrap a.value)

/-- The value of a decimal literal without suffix. -/
def literal (n : Nat) : CValue :=
  if cInt.Fits n then ⟨cInt, n⟩ else if cLong.Fits n then ⟨cLong, n⟩ else ⟨cUnsignedLong, n⟩

/-- The conversion of a `uint64_t` to an `int64_t`. -/
def toInt64 (n : Nat) : Int := cLong.wrap n

theorem toInt64_of_lt {n : Nat} (h : n < 2 ^ 63) : toInt64 n = n := by
  refine IntType.wrap_of_fits (by decide) ⟨?_, ?_⟩
  · exact (show cLong.lo ≤ 0 by decide).trans (Int.natCast_nonneg n)
  · exact show (n : Int) ≤ 2 ^ 63 - 1 by omega

/-- The conversion of an `int64_t` to a `uint64_t`. -/
def toUInt64 (i : Int64) : Nat := i.toUInt64.toNat

theorem toUInt64_cases (i : Int64) :
    (0 ≤ i.toInt ∧ (toUInt64 i : Int) = i.toInt) ∨ (i.toInt < 0 ∧ 2 ^ 63 ≤ toUInt64 i) := by
  have hcond := BitVec.toInt_eq_toNat_cond i.toBitVec
  rw [Int64.toNat_toBitVec] at hcond
  have hcond : i.toInt = _ := hcond
  have hlt : toUInt64 i < 2 ^ 64 := UInt64.toNat_lt _
  rw [hcond]
  unfold toUInt64 at hlt ⊢
  split
  · exact Or.inl (by omega)
  · exact Or.inr (by omega)

/-- An index below a bound is one that is not negative. -/
theorem toUInt64_lt_iff {i : Int64} {n : Nat} (hn : n ≤ 2 ^ 63) :
    toUInt64 i < n ↔ 0 ≤ i.toInt ∧ i.toInt < n := by
  rcases toUInt64_cases i with ⟨hnonneg, heq⟩ | ⟨hneg, hbig⟩
  · omega
  · omega

theorem result_eq {t : IntType} {x : Int} {c : CValue} (h : result t x = some c) :
    c.type = t ∧ c.value = t.wrap x ∨ c.type = t ∧ c.value = x ∧ t.Fits x := by
  unfold result at h
  split at h
  · split at h
    · next hfits =>
      cases h
      exact Or.inr ⟨rfl, rfl, hfits⟩
    · cases h
  · cases h
    exact Or.inl ⟨rfl, rfl⟩

/-- A signed result is defined exactly when its type has it. -/
theorem result_signed {t : IntType} (ht : t.signed = true) {x : Int} {c : CValue} :
    result t x = some c ↔ t.Fits x ∧ c = ⟨t, x⟩ := by
  unfold result
  rw [if_pos ht]
  split
  · next hfits => simp [hfits, eq_comm]
  · next hfits => simp [hfits]

/-- `int64_t` in its order. -/
instance int64LinearOrder : LinearOrder Int64 where
  le_refl a := Int64.le_refl a
  le_trans _ _ _ := Int64.le_trans
  lt_iff_le_not_ge a b := by
    rw [Int64.lt_iff_toInt_lt, Int64.le_iff_toInt_le, Int64.le_iff_toInt_le]
    omega
  le_antisymm _ _ := Int64.le_antisymm
  le_total := Int64.le_total
  toDecidableLE := inferInstance
  toDecidableLT := inferInstance
  toDecidableEq := inferInstance

end Vani.Library
