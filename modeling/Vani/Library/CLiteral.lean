import Mathlib.Data.List.Basic
import Mathlib.Data.List.Infix

/-!
# String literals of C

How a compiler reads a string literal, byte by byte: trigraphs are replaced before anything
else, then a backslash starts an escape sequence, of which the octal ones have at most three
digits, the universal character names four or eight, and the hexadecimal ones as many as
follow. A literal that ends early or whose escape sequence has no meaning has no value. A
format string is read once more by `printf`, for which only `%%` has a meaning without an
argument.
-/

set_option autoImplicit false

namespace Vani.Library

/-- The character a trigraph with this last character stands for. -/
def trigraph : UInt8 → Option UInt8
  | 61 => some 35
  | 40 => some 91
  | 47 => some 92
  | 41 => some 93
  | 39 => some 94
  | 60 => some 123
  | 33 => some 124
  | 62 => some 125
  | 45 => some 126
  | _ => none

/-- The replacement of a trigraph that starts here. -/
def trigraphAt : UInt8 → List UInt8 → Option UInt8
  | 63, 63 :: c :: _ => trigraph c
  | _, _ => none

/-- Trigraphs replaced, after some characters to leave out. -/
def replaceFrom : Nat → List UInt8 → List UInt8
  | _, [] => []
  | k + 1, _ :: s => replaceFrom k s
  | 0, c :: s =>
    match trigraphAt c s with
    | some d => d :: replaceFrom 2 s
    | none => c :: replaceFrom 0 s

/-- The first translation phase. -/
def replaceTrigraphs (s : List UInt8) : List UInt8 := replaceFrom 0 s

/-- The value of a simple escape sequence. -/
def simpleEscape : UInt8 → Option UInt8
  | 39 => some 39
  | 34 => some 34
  | 63 => some 63
  | 92 => some 92
  | 97 => some 7
  | 98 => some 8
  | 102 => some 12
  | 110 => some 10
  | 114 => some 13
  | 116 => some 9
  | 118 => some 11
  | _ => none

/-- The value of a hexadecimal digit. -/
def hexValue (c : UInt8) : Option Nat :=
  if 48 ≤ c.toNat ∧ c.toNat ≤ 57 then some (c.toNat - 48)
  else if 97 ≤ c.toNat ∧ c.toNat ≤ 102 then some (c.toNat - 87)
  else if 65 ≤ c.toNat ∧ c.toNat ≤ 70 then some (c.toNat - 55)
  else none

/-- The value of an octal digit. -/
def octalValue (c : UInt8) : Option Nat :=
  if 48 ≤ c.toNat ∧ c.toNat ≤ 55 then some (c.toNat - 48) else none

/-- The bytes of a universal character name. -/
def universalBytes (v : Nat) : Option (List UInt8) :=
  if v.isValidChar ∧ (160 ≤ v ∨ v = 36 ∨ v = 64 ∨ v = 96) then
    some (String.utf8EncodeChar (Char.ofNat v))
  else none

/-- Where the reading of a literal stands: outside an escape sequence, behind its backslash,
or in one with the value so far and, but for a hexadecimal one, the number of digits that may
follow. -/
inductive LiteralState
  | plain
  | escape
  | hex (v : Option Nat)
  | octal (v k : Nat)
  | universal (v k : Nat)

/-- A character outside an escape sequence. -/
def onPlain (c : UInt8) (s : List UInt8) (next escaped : Option (List UInt8)) :
    Option (List UInt8) :=
  if c = 34 then (if s = [] then some [] else none)
  else if c = 92 then escaped
  else if c = 10 then none
  else next.map (c :: ·)

/-- A numeric escape sequence with its value, and what follows it. -/
def numericEscape (v : Nat) (rest : Option (List UInt8)) : Option (List UInt8) :=
  if v < 256 then rest.map (UInt8.ofNat v :: ·) else none

/-- The bytes of a literal up to the quote that ends it, behind which there is nothing. -/
def readLiteral : LiteralState → List UInt8 → Option (List UInt8)
  | _, [] => none
  | .plain, c :: s => onPlain c s (readLiteral .plain s) (readLiteral .escape s)
  | .escape, c :: s =>
    match simpleEscape c with
    | some d => (readLiteral .plain s).map (d :: ·)
    | none =>
      if c = 120 then readLiteral (.hex none) s
      else if c = 117 then readLiteral (.universal 0 4) s
      else if c = 85 then readLiteral (.universal 0 8) s
      else
        match octalValue c with
        | some v => readLiteral (.octal v 2) s
        | none => none
  | .hex v, c :: s =>
    match hexValue c with
    | some d => readLiteral (.hex (some (v.getD 0 * 16 + d))) s
    | none =>
      match v with
      | some v => numericEscape v (onPlain c s (readLiteral .plain s) (readLiteral .escape s))
      | none => none
  | .octal v k, c :: s =>
    match k, octalValue c with
    | k + 1, some d => readLiteral (.octal (v * 8 + d) k) s
    | _, _ => numericEscape v (onPlain c s (readLiteral .plain s) (readLiteral .escape s))
  | .universal v k, c :: s =>
    match hexValue c with
    | none => none
    | some d =>
      if k ≤ 1 then
        (universalBytes (v * 16 + d)).bind fun u => (readLiteral .plain s).map (u ++ ·)
      else readLiteral (.universal (v * 16 + d) (k - 1)) s

/-- The bytes of a string literal, given with its quotes. -/
def literalBytes (source : List UInt8) : Option (List UInt8) :=
  match replaceTrigraphs source with
  | 34 :: s => readLiteral .plain s
  | _ => none

/-- What `printf` writes for a format without arguments. -/
def printfOutput : List UInt8 → Option (List UInt8)
  | [] => some []
  | 37 :: 37 :: s => (printfOutput s).map (37 :: ·)
  | 37 :: _ => none
  | c :: s => (printfOutput s).map (c :: ·)

/-- A format writes no more than its own length, and that only if it is its own output. -/
theorem printfOutput_length {s r : List UInt8} (h : printfOutput s = some r) :
    r.length ≤ s.length ∧ (r.length = s.length → r = s ∧ 37 ∉ s) := by
  fun_induction printfOutput s generalizing r with
  | case1 =>
    cases h
    exact ⟨Nat.le_refl _, fun _ => ⟨rfl, List.not_mem_nil⟩⟩
  | case2 s ih =>
    obtain ⟨r', hr', rfl⟩ := Option.map_eq_some_iff.mp h
    have hle := (ih hr').1
    simp only [List.length_cons]
    exact ⟨by omega, fun heq => by omega⟩
  | case3 => cases h
  | case4 c s _ hne ih =>
    obtain ⟨r', hr', rfl⟩ := Option.map_eq_some_iff.mp h
    obtain ⟨hle, heq⟩ := ih hr'
    simp only [List.length_cons]
    refine ⟨by omega, fun hlen => ?_⟩
    obtain ⟨rfl, hmem⟩ := heq (by omega)
    refine ⟨rfl, fun hin => ?_⟩
    rcases List.mem_cons.mp hin with hc | hin
    · exact hne hc.symm
    · exact hmem hin

/-- A format without `%` is its own output. -/
theorem printfOutput_of_not_mem {s : List UInt8} (h : 37 ∉ s) : printfOutput s = some s := by
  induction s with
  | nil => rfl
  | cons c s ih =>
    have hc : c ≠ 37 := fun heq => h (heq ▸ List.mem_cons_self)
    have hs := ih fun hmem => h (List.mem_cons_of_mem c hmem)
    unfold printfOutput
    split
    · next heq => cases heq
    · next heq =>
      cases heq
      exact absurd rfl hc
    · next heq =>
      cases heq
      exact absurd rfl hc
    · next heq =>
      cases heq
      rw [hs]
      rfl

end Vani.Library
