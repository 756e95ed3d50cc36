import Vani.Backend.Numeric

/-!
# Arithmetic builtins on `i64`

More statement expressions in `int64_t`: division with other roundings, Euclid's algorithm,
powers, logarithms, sums over divisors and counting. Where two of them share a loop it is one
definition. A shift to the right of a negative number keeps its sign, as the compilers do it.
-/

set_option autoImplicit false

namespace Vani.Backend

open Vani.Library
open Vec (signed)

/-- `x < 0 ? -x : x`. -/
def magnitude (x : Int) : Outcome Int := if x < 0 then signed (-x) else pure x

/-- `((x % m) + m) % m`. -/
def residueOf (x m : Int) : Outcome Int := do
  let r ← remainderOf x m
  let s ← signed (r + m)
  remainderOf s m

/-! ## Rounded division -/

/-- Source: backend_c.rs:10896-10902 -/
def i64DivFloor (a b : Int64) : Outcome Int := do
  let q ← quotient a.toInt b.toInt
  let r ← remainderOf a.toInt b.toInt
  if r ≠ 0 ∧ (a ^^^ b).toInt < 0 then signed (q - 1) else pure q

/-- Source: backend_c.rs:10906-10912 -/
def i64ModFloor (a b : Int64) : Outcome Int := do
  let r ← remainderOf a.toInt b.toInt
  if r ≠ 0 ∧ (a ^^^ b).toInt < 0 then signed (r + b.toInt) else pure r

/-- Source: backend_c.rs:11119-11123 -/
def i64DivCeil (a b : Int64) : Outcome Int := do
  let q ← quotient a.toInt b.toInt
  let r ← remainderOf a.toInt b.toInt
  if r ≠ 0 ∧ (a.toInt < 0 ↔ b.toInt < 0) then signed (q + 1) else pure q

/-- Source: backend_c.rs:11124-11128 -/
def i64DivRound (a b : Int64) : Outcome Int := do
  let aa ← magnitude a.toInt
  let ab ← magnitude b.toInt
  let half ← quotient ab 2
  let sum ← signed (aa + half)
  let q ← quotient sum ab
  if a.toInt < 0 ↔ b.toInt < 0 then pure q else signed (-q)

/-! ## Ranges -/

/-- Source: backend_c.rs:11222-11227 -/
def i64Wrap (x lo hi : Int64) : Outcome Int := do
  let r ← signed (hi.toInt - lo.toInt)
  if r ≤ 0 then pure x.toInt
  else do
    let rel ← signed (x.toInt - lo.toInt)
    let m ← remainderOf rel r
    let m ← if m < 0 then signed (m + r) else pure m
    signed (lo.toInt + m)

/-- Source: backend_c.rs:11247-11251 -/
def i64Avg (a b : Int64) : Outcome Int := signed ((a &&& b).toInt + (a ^^^ b).toInt >>> (1 : Nat))

/-! ## Euclid's algorithm -/

/-- A turn of `while (__gb != 0)`. -/
def gcdTurn : Int × Int → Outcome ((Int × Int) ⊕ Int)
  | (a, b) =>
    if b ≠ 0 then do
      let t ← remainderOf a b
      pure (.inl (b, t))
    else pure (.inr a)

/-- The loop of both builtins. -/
def euclid (a b : Int) : Outcome Int := Outcome.loop gcdTurn (b.toNat + 1) (a, b)

/-- Source: backend_c.rs:11752-11758 -/
def i64Gcd (a b : Int64) : Outcome Int := do
  let ga ← magnitude a.toInt
  let gb ← magnitude b.toInt
  euclid ga gb

/-- Source: backend_c.rs:11759-11768 -/
def i64Lcm (a b : Int64) : Outcome Int :=
  if a.toInt = 0 ∨ b.toInt = 0 then pure 0
  else do
    let aa ← magnitude a.toInt
    let bb ← magnitude b.toInt
    let g ← euclid aa bb
    let q ← quotient aa g
    signed (q * bb)

/-- The variables of the extended algorithm. -/
structure Extended where
  g : Int
  x : Int
  og : Int
  ox : Int

/-- A turn of `while (__mi_og != 0)`. -/
def extendedTurn (s : Extended) : Outcome (Extended ⊕ (Int × Int)) :=
  if s.og ≠ 0 then do
    let q ← quotient s.g s.og
    let p ← signed (q * s.og)
    let og ← signed (s.g - p)
    let p ← signed (q * s.ox)
    let ox ← signed (s.x - p)
    pure (.inl ⟨s.og, s.ox, og, ox⟩)
  else pure (.inr (s.g, s.x))

/-- Source: backend_c.rs:11385-11389 -/
def i64ModInverse (a m : Int64) : Outcome Int :=
  if m.toInt ≤ 1 then pure 0
  else do
    let og ← residueOf a.toInt m.toInt
    let (g, x) ← Outcome.loop extendedTurn (og.toNat + 1) ⟨m.toInt, 0, og, 1⟩
    if g ≠ 1 then pure 0 else residueOf x m.toInt

/-! ## Powers -/

/-- A turn of `while (__pe > 0)` on the base, the exponent and the result. -/
def powTurn : Int × Int × Int → Outcome ((Int × Int × Int) ⊕ Int)
  | (b, e, r) =>
    if e > 0 then do
      let r ← if e % 2 = 1 then signed (r * b) else pure r
      let b ← signed (b * b)
      pure (.inl (b, e >>> (1 : Nat), r))
    else pure (.inr r)

/-- Source: backend_c.rs:11769-11775 -/
def i64Pow (b e : Int64) : Outcome Int :=
  if e.toInt < 0 then pure 0
  else Outcome.loop powTurn (e.toInt.toNat + 1) (b.toInt, e.toInt, 1)

/-- A turn of `while (__pmb > 0)`. -/
def powModTurn (m : Int) : Int × Int × Int → Outcome ((Int × Int × Int) ⊕ Int)
  | (a, b, r) =>
    if b > 0 then do
      let r ← if b % 2 = 1 then do
          let p ← signed (r * a)
          remainderOf p m
        else pure r
      let s ← signed (a * a)
      let a ← remainderOf s m
      pure (.inl (a, b >>> (1 : Nat), r))
    else pure (.inr r)

/-- Source: backend_c.rs:11163-11168 -/
def i64PowMod (a b m : Int64) : Outcome Int :=
  if m.toInt ≤ 1 ∨ b.toInt < 0 then pure 0
  else do
    let a ← residueOf a.toInt m.toInt
    Outcome.loop (powModTurn m.toInt) (b.toInt.toNat + 1) (a, b.toInt, 1)

/-! ## Logarithms -/

/-- `__builtin_clzll`, the zeros above the highest one in 64 bits; undefined at zero. -/
def clz (n : Int) : Outcome Int := if n = 0 then .stuck else pure (63 - (n.toNat.log2 : Int))

/-- Source: backend_c.rs:10919-10924 -/
def i64Log2Floor (n : Int64) : Outcome Int :=
  if n.toInt ≤ 0 then pure (-1)
  else do
    let z ← clz n.toInt
    pure (63 - z)

/-- Source: backend_c.rs:10925-10930 -/
def i64Log2Ceil (n : Int64) : Outcome Int :=
  if n.toInt ≤ 0 then pure (-1)
  else if n.toInt = 1 then pure 0
  else do
    let z ← clz (n.toInt - 1)
    pure (64 - z)

/-- `(int64_t)1 << k`. -/
def shiftOne (k : Int) : Outcome Int := if 0 ≤ k ∧ k < 64 then signed (2 ^ k.toNat) else .stuck

/-- Source: backend_c.rs:10941-10949 -/
def i64NextPowerOf2 (n : Int64) : Outcome Int :=
  if n.toInt ≤ 1 then pure 1
  else do
    let z ← clz (n.toInt - 1)
    shiftOne (64 - z)

/-- A turn of `while (__n >= 10)`. -/
def log10FloorTurn : Int × Int → Outcome ((Int × Int) ⊕ Int)
  | (n, c) =>
    if n ≥ 10 then do
      let n ← quotient n 10
      let c ← signed (c + 1)
      pure (.inl (n, c))
    else pure (.inr c)

/-- Source: backend_c.rs:11147-11150 -/
def i64Log10Floor (n : Int64) : Outcome Int :=
  if n.toInt ≤ 0 then pure 0
  else Outcome.loop log10FloorTurn (n.toInt.toNat + 1) (n.toInt, 0)

/-- A turn of `while (__m < __n)`. -/
def log10CeilTurn (n : Int) : Int × Int → Outcome ((Int × Int) ⊕ Int)
  | (m, c) =>
    if m < n then do
      let m ← signed (m * 10)
      let c ← signed (c + 1)
      pure (.inl (m, c))
    else pure (.inr c)

/-- Source: backend_c.rs:11153-11156 -/
def i64Log10Ceil (n : Int64) : Outcome Int :=
  if n.toInt ≤ 1 then pure 0
  else Outcome.loop (log10CeilTurn n.toInt) (n.toInt.toNat + 1) (1, 0)

/-! ## Divisors -/

/-- A turn of the loop over the divisors up to the root; `weigh` adds one of them and, unless it
is the root, the divisor paired with it. -/
def divisorTurn (weigh : Int → Int → Bool → Outcome Int) (n : Int) :
    Int × Int → Outcome ((Int × Int) ⊕ Int)
  | (i, r) => do
    let square ← signed (i * i)
    if square ≤ n then do
      let rest ← remainderOf n i
      let r ← if rest = 0 then weigh r i (square = n) else pure r
      let i ← signed (i + 1)
      pure (.inl (i, r))
    else pure (.inr r)

/-- The loop of both builtins. -/
def overDivisors (weigh : Int → Int → Bool → Outcome Int) (n : Int64) : Outcome Int :=
  if n.toInt ≤ 0 then pure 0
  else Outcome.loop (divisorTurn weigh n.toInt) (n.toInt.toNat + 1) (1, 0)

/-- Source: backend_c.rs:11316-11319 -/
def i64DivisorCount (n : Int64) : Outcome Int :=
  overDivisors (fun r _ root => if root then signed (r + 1) else signed (r + 2)) n

/-- Source: backend_c.rs:11323-11326 -/
def i64DivisorSum (n : Int64) : Outcome Int :=
  overDivisors (fun r i root =>
    if root then signed (r + i)
    else do
      let q ← quotient n.toInt i
      let s ← signed (i + q)
      signed (r + s)) n

/-- A turn of `while (__ttm % __tti == 0) __ttm /= __tti`. -/
def divideOutTurn (p m : Int) : Outcome (Int ⊕ Int) := do
  let rest ← remainderOf m p
  if rest = 0 then do
    let q ← quotient m p
    pure (.inl q)
  else pure (.inr m)

/-- All factors `p` are taken out of `m`. -/
def divideOut (p m : Int) : Outcome Int := Outcome.loop (divideOutTurn p) (m.toNat + 1) m

/-- A turn of the loop over the candidates, on the candidate, what is left of `n` and the
result; `fold` takes a prime factor into the result. -/
def primeTurn (fold : Int → Int → Outcome Int) :
    Int × Int × Int → Outcome ((Int × Int × Int) ⊕ (Int × Int))
  | (i, m, r) => do
    let square ← signed (i * i)
    if square ≤ m then do
      let rest ← remainderOf m i
      if rest = 0 then do
        let r ← fold r i
        let m ← divideOut i m
        let i ← signed (i + 1)
        pure (.inl (i, m, r))
      else do
        let i ← signed (i + 1)
        pure (.inl (i, m, r))
    else pure (.inr (m, r))

/-- The loop of both builtins, and the factor that is left behind it. -/
def overPrimes (fold : Int → Int → Outcome Int) (n r : Int) : Outcome Int := do
  let (m, r) ← Outcome.loop (primeTurn fold) (n.toNat + 1) (2, n, r)
  if m > 1 then fold r m else pure r

/-- Source: backend_c.rs:11332-11335 -/
def i64Totient (n : Int64) : Outcome Int :=
  if n.toInt ≤ 0 then pure 0
  else overPrimes (fun r p => do
    let q ← quotient r p
    signed (r - q)) n.toInt n.toInt

/-- Source: backend_c.rs:11339-11342 -/
def i64Radical (n : Int64) : Outcome Int :=
  if n.toInt ≤ 0 then pure 0 else overPrimes (fun r p => signed (r * p)) n.toInt 1

/-! ## Counting -/

/-- `INT64_MAX`. -/
def int64Max : Int := 9223372036854775807

/-- A turn of the loop of `binomial`; a product that overflows ends it with the greatest value. -/
def binomialTurn (n k : Int) : Int × Int → Outcome ((Int × Int) ⊕ Int)
  | (i, r) =>
    if i ≤ k then do
      let f ← signed (n - i)
      let f ← signed (f + 1)
      if cLong.Fits (r * f) then do
        let r ← quotient (r * f) i
        let i ← signed (i + 1)
        pure (.inl (i, r))
      else do
        let _ ← signed (i + 1)
        pure (.inr int64Max)
    else pure (.inr r)

/-- Source: backend_c.rs:11203-11207 -/
def i64Binomial (n k : Int64) : Outcome Int :=
  if k.toInt < 0 ∨ n.toInt < 0 ∨ k.toInt > n.toInt then pure 0
  else if k.toInt = 0 ∨ k.toInt = n.toInt then pure 1
  else do
    let d ← signed (n.toInt - k.toInt)
    let k := if k.toInt > d then d else k.toInt
    Outcome.loop (binomialTurn n.toInt k) (k.toNat + 1) (1, 1)

/-- A turn of the loop of `perm`. -/
def permTurn (n k : Int) : Int × Int → Outcome ((Int × Int) ⊕ Int)
  | (i, r) =>
    if i < k then do
      let f ← signed (n - i)
      let i ← signed (i + 1)
      if cLong.Fits (r * f) then pure (.inl (i, r * f)) else pure (.inr int64Max)
    else pure (.inr r)

/-- Source: backend_c.rs:11212-11217 -/
def i64Perm (n k : Int64) : Outcome Int :=
  if k.toInt < 0 ∨ n.toInt < 0 ∨ k.toInt > n.toInt then pure 0
  else if k.toInt = 0 then pure 1
  else Outcome.loop (permTurn n.toInt k.toInt) (k.toInt.toNat + 1) (0, 1)

end Vani.Backend
