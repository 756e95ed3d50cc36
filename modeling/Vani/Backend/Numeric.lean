import Vani.Backend.VecQueries

/-!
# Numeric builtins on `i64`

The statement expressions emitted for the integer square roots and for the tests of
primality. All of them compute in `int64_t`, where a result that the type does not have is
undefined. The loop of Newton's iteration and the loop of the trial division are written out
in every builtin; they are one definition each here.
-/

set_option autoImplicit false

namespace Vani.Backend

open Vani.Library
open Vec (signed)

/-- `a / b`, rounded to zero. -/
def quotient (a b : Int) : Outcome Int := if b = 0 then .stuck else signed (a.tdiv b)

/-- `a % b`, undefined where the quotient is. -/
def remainderOf (a b : Int) : Outcome Int := do
  let _ ← quotient a b
  pure (a.tmod b)

/-! ## Square roots -/

/-- `(x + n / x) / 2`. -/
def newtonStep (n x : Int) : Outcome Int := do
  let q ← quotient n x
  let s ← signed (x + q)
  quotient s 2

/-- A turn of `while (__iy < __ix)`. -/
def newtonTurn (n : Int) : Int × Int → Outcome ((Int × Int) ⊕ Int)
  | (ix, iy) =>
    if iy < ix then do
      let next ← newtonStep n iy
      pure (.inl (iy, next))
    else pure (.inr ix)

/-- The iteration from `n` down. -/
def newton (n : Int) : Outcome Int := do
  let iy ← newtonStep n n
  Outcome.loop (newtonTurn n) (n.toNat + 1) (n, iy)

/-- Source: backend_c.rs:11049-11052 -/
def isqrt (n : Int64) : Outcome Int :=
  if n.toInt < 0 then pure 0
  else if n.toInt < 2 then pure n.toInt
  else newton n.toInt

/-- Source: backend_c.rs:11302-11305 -/
def isqrtCeil (n : Int64) : Outcome Int :=
  if n.toInt ≤ 0 then pure 0
  else if n.toInt < 2 then pure n.toInt
  else do
    let ix ← newton n.toInt
    let square ← signed (ix * ix)
    if square = n.toInt then pure ix else signed (ix + 1)

/-- Source: backend_c.rs:11306-11311 -/
def isPerfectSquare (n : Int64) : Outcome Bool :=
  if n.toInt < 0 then pure false
  else if n.toInt < 2 then pure true
  else do
    let ix ← newton n.toInt
    let square ← signed (ix * ix)
    pure (square = n.toInt)

/-! ## Primes -/

/-- A turn of `while (__ipi * __ipi <= __ipn)`. -/
def trialTurn (n i : Int) : Outcome (Int ⊕ Bool) := do
  let square ← signed (i * i)
  if square ≤ n then do
    let r ← remainderOf n i
    if r = 0 then pure (.inr false)
    else do
      let j ← signed (i + 2)
      let r ← remainderOf n j
      if r = 0 then pure (.inr false)
      else do
        let next ← signed (i + 6)
        pure (.inl next)
  else pure (.inr true)

/-- The division by 5, 7, 11, 13, …. -/
def trial (n : Int) : Outcome Bool := Outcome.loop (trialTurn n) (n.toNat + 1) 5

/-- Source: backend_c.rs:11173-11176 -/
def isPrime (n : Int64) : Outcome Bool :=
  if n.toInt < 2 then pure false
  else if n.toInt < 4 then pure true
  else if n.toInt.tmod 2 = 0 ∨ n.toInt.tmod 3 = 0 then pure false
  else trial n.toInt

/-- The first `__npc`. -/
def npStart (n : Int) : Outcome Int := if n.tmod 2 = 0 then signed (n + 1) else pure n

/-- `__np_isp` for an odd candidate. -/
def npIsp (c : Int) : Outcome Bool := if c.tmod 3 = 0 then pure (decide (c = 3)) else trial c

/-- A turn of the search upwards. -/
def nextTurn (c : Int) : Outcome (Int ⊕ Int) := do
  let isp ← npIsp c
  if isp then pure (.inr c)
  else do
    let next ← signed (c + 2)
    pure (.inl next)

/-- Source: backend_c.rs:11346-11349 -/
def nextPrime (n : Int64) : Outcome Int :=
  if n.toInt ≤ 2 then pure 2
  else if n.toInt = 3 then pure 3
  else do
    let c ← npStart n.toInt
    Outcome.loop nextTurn (2 ^ 63) c

/-- The first `__ppc`. -/
def ppStart (n : Int) : Outcome Int := if n.tmod 2 = 0 then signed (n - 1) else pure n

/-- `__pp_isp` for an odd candidate. -/
def ppIsp (c : Int) : Outcome Bool :=
  if c < 5 then pure (decide (c = 2 ∨ c = 3))
  else if c.tmod 3 = 0 then pure false
  else trial c

/-- A turn of the search downwards. -/
def prevTurn (c : Int) : Outcome (Int ⊕ Int) := do
  let isp ← ppIsp c
  if isp then pure (.inr c)
  else do
    let next ← signed (c - 2)
    if next < 2 then pure (.inr 2) else pure (.inl next)

/-- Source: backend_c.rs:11392-11395 -/
def prevPrime (n : Int64) : Outcome Int :=
  if n.toInt < 2 then pure 0
  else if n.toInt = 2 then pure 2
  else if n.toInt < 5 then pure 3
  else do
    let c ← ppStart n.toInt
    Outcome.loop prevTurn (n.toInt.toNat + 1) c

/-!
## Random numbers

The generator of a thread: a word of state that a draw sends through three xor-shifts. A draw
from a range takes the remainder of a word by the length of the range; the length is a
difference of `int64_t` before it is converted.
-/

/-- The state before a seed, and after the seed zero. -/
def rngDefault : UInt64 := 0x123456789abcdef0

/-- Source: backend_c.rs:733-736 -/
def rngSeed (s : UInt64) : UInt64 := if s = 0 then rngDefault else s

/-- The state after a draw, which is also what is drawn. Source: backend_c.rs:737-744 -/
def rngNext (x : UInt64) : UInt64 :=
  let x := x ^^^ x <<< 13
  let x := x ^^^ x >>> 7
  x ^^^ x <<< 17

/-- Source: backend_c.rs:745-750 -/
def rngInRange (lo hi : Int64) (x : UInt64) : Outcome (Int × UInt64) :=
  if lo.toInt ≥ hi.toInt then pure (lo.toInt, x)
  else do
    let d ← signed (hi.toInt - lo.toInt)
    let span := (cUnsignedLong.wrap d).toNat
    let r := rngNext x
    let y ← signed (lo.toInt + toInt64 (r.toNat % span))
    pure (y, r)

/-- The calls of a thread on its generator. -/
inductive RngCall
  | seed (s : UInt64)
  | next
  | inRange (lo hi : Int64)

/-- What a call returns, and the state after it. Source: backend_c.rs:10827-10837 -/
def RngCall.run : RngCall → UInt64 → Outcome (Int × UInt64)
  | .seed s, _ => pure (0, rngSeed s)
  | .next, x => pure (toInt64 (rngNext x).toNat, rngNext x)
  | .inRange lo hi, x => rngInRange lo hi x

end Vani.Backend
