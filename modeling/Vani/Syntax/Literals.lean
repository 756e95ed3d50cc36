import Mathlib.Algebra.Group.Nat.Defs
import Mathlib.Data.Nat.Log

/-!
# Values of literals

What the digits of a literal stand for: an `i128`, or the bits of the nearest `f64`. And back: the
shortest digits that stand for an `f64`, which is what it is printed with.
-/

set_option autoImplicit false

namespace Vani.Syntax

/-- The value of a hexadecimal digit. -/
def digitValue (c : Char) : Nat :=
  if c.isDigit then c.toNat - 0x30
  else if c.isLower then c.toNat - 0x61 + 10
  else c.toNat - 0x41 + 10

/-- The value of digits in a base. -/
def digitsValue (radix : Nat) (digits : List Char) : Nat :=
  digits.foldl (fun n c => n * radix + digitValue c) 0

/-- `i128::from_str_radix` of digits in that base. -/
def parseI128 (radix : Nat) (digits : List Char) : Option Int :=
  if digits.isEmpty then none
  else if digitsValue radix digits < 2 ^ 127 then some (digitsValue radix digits) else none

/-- Source: lexer.rs:1191-1193 -/
def stripUnderscores (text : List Char) : List Char := text.filter (· ≠ '_')

/-- The bits of infinity. -/
def infinityBits : Nat := 0x7FF * 2 ^ 52

/-- The largest power of two that is at most the fraction. -/
def log2Ratio (num den : Nat) : Int :=
  let k : Int := (Nat.log2 num : Int) - Nat.log2 den
  if 0 ≤ k then if den * 2 ^ k.toNat ≤ num then k else k - 1
  else if den ≤ num * 2 ^ (-k).toNat then k else k - 1

/-- The nearest integer to the fraction, the even one of two. -/
def roundHalfEven (num den : Nat) : Nat :=
  let q := num / den
  let twice := 2 * (num % den)
  if den < twice ∨ twice = den ∧ q % 2 = 1 then q + 1 else q

/-- The bits of the `f64` nearest to a fraction. -/
def nearestF64 (num den : Nat) : Nat :=
  if num = 0 then 0
  else
    -- the value of the last bit is `2 ^ e`, that of a subnormal `2 ^ -1074`
    let e := max (log2Ratio num den - 52) (-1074)
    let m := if 0 ≤ e then roundHalfEven num (den * 2 ^ e.toNat)
      else roundHalfEven (num * 2 ^ (-e).toNat) den
    min ((e + 1074).toNat * 2 ^ 52 + m) infinityBits

/-- The exponent after an `e`. -/
def parseExponent (text : List Char) : Option Int :=
  let (negative, digits) := match text with
    | '-' :: digits => (true, digits)
    | '+' :: digits => (false, digits)
    | digits => (false, digits)
  if digits.isEmpty || !digits.all Char.isDigit then none
  else if negative then some (-(digitsValue 10 digits : Int)) else some (digitsValue 10 digits)

/-- `text.parse::<f64>()` where the text is digits, a fraction and an exponent. -/
def parseF64 (text : List Char) : Option Nat := do
  let whole := text.takeWhile Char.isDigit
  let (fraction, rest) := match text.dropWhile Char.isDigit with
    | '.' :: rest => (rest.takeWhile Char.isDigit, rest.dropWhile Char.isDigit)
    | rest => ([], rest)
  let exponent ← match rest with
    | [] => some 0
    | c :: rest => if c = 'e' ∨ c = 'E' then parseExponent rest else none
  if (whole ++ fraction).isEmpty then none
  else
    let value := digitsValue 10 (whole ++ fraction)
    let scale := exponent - fraction.length
    if 0 ≤ scale then some (nearestF64 (value * 10 ^ scale.toNat) 1)
    else some (nearestF64 value (10 ^ (-scale).toNat))

/-! ## Printed floats -/

/-- The fraction that the bits of a finite `f64` stand for, the sign apart. -/
def fractionOf (bits : Nat) : Nat × Nat :=
  let exponent := bits / 2 ^ 52 % 2 ^ 11
  let mantissa := bits % 2 ^ 52
  if exponent = 0 then (mantissa, 2 ^ 1074)
  else if 1075 ≤ exponent then ((mantissa + 2 ^ 52) * 2 ^ (exponent - 1075), 1)
  else (mantissa + 2 ^ 52, 2 ^ (1075 - exponent))

/-- The `p` with the fraction between `10 ^ (p - 1)` and `10 ^ p`. -/
def decimalPoint (num den : Nat) : Int :=
  if den ≤ num then Nat.log 10 (num / den) + 1 else 1 - Nat.clog 10 ((den + num - 1) / num)

/-- `d * 10 ^ e` as a fraction. -/
def scaled (d : Nat) (e : Int) : Nat × Nat :=
  if 0 ≤ e then (d * 10 ^ e.toNat, 1) else (d, 10 ^ (-e).toNat)

/-- A number of so many digits that is read as the given bits, with the exponent of its last digit;
the nearer one of two. -/
def digitsOfLength (bits num den : Nat) (n : Nat) : Option (Nat × Int) :=
  let e := decimalPoint num den - n
  let (whole, part) := if 0 ≤ e then (num / (den * 10 ^ e.toNat), num % (den * 10 ^ e.toNat) * 2)
    else (num * 10 ^ (-e).toNat / den, num * 10 ^ (-e).toNat % den * 2)
  let unit := if 0 ≤ e then den * 10 ^ e.toNat else den
  let reads (d : Nat) : Bool := nearestF64 (scaled d e).1 (scaled d e).2 == bits
  match reads whole, reads (whole + 1) with
  | true, true => some (if unit < part then whole + 1 else whole, e)
  | true, false => some (whole, e)
  | false, true => some (whole + 1, e)
  | false, false => none

/-- The shortest digits of a positive `f64`, and the place of the decimal point before them. -/
def shortestDigits (bits : Nat) : List Char × Int :=
  let (num, den) := fractionOf bits
  let (d, e) := ((List.range 17).findSome? fun n => digitsOfLength bits num den (n + 1)).getD (0, 0)
  let digits := Nat.toDigits 10 d
  ((digits.reverse.dropWhile (· == '0')).reverse, digits.length + e)

/-- Digits with a decimal point among them, before or behind them. -/
def withPoint (digits : List Char) (point : Int) : List Char × List Char :=
  if point ≤ 0 then (['0'], List.replicate (-point).toNat '0' ++ digits)
  else (digits.take point.toNat ++ List.replicate (point.toNat - digits.length) '0',
    digits.drop point.toNat)

/-- `format!("{:?}", value)` of a finite `f64`. -/
def debugF64 (bits : Nat) : String :=
  let sign := if bits < 2 ^ 63 then "" else "-"
  let magnitude := bits % 2 ^ 63
  if magnitude = 0 then sign ++ "0.0"
  else
    let (digits, point) := shortestDigits magnitude
    let (num, den) := fractionOf magnitude
    if 10 ^ 16 * den ≤ num || num * 10 ^ 4 < den then
      let fraction := digits.drop 1
      sign ++ String.ofList (digits.take 1 ++ if fraction.isEmpty then [] else '.' :: fraction) ++
        "e" ++ toString (point - 1)
    else
      let (whole, fraction) := withPoint digits point
      sign ++ String.ofList (whole ++ '.' :: if fraction.isEmpty then ['0'] else fraction)

end Vani.Syntax
