import Vani.Library.CText
import Vani.Library.CLiteral

/-!
# Texts in the emitted C

A text of the program becomes a C string literal: escaped, between quotes, as an argument of
`fputs` or a string expression; the message of an assertion becomes part of a format of
`fprintf`. `parse_int` converts a text with `strtoll` and asks whether it reached the end.
-/

set_option autoImplicit false

namespace Vani.Backend

open Vani.Library

/-- The lower-case hexadecimal digit of a value. -/
def hexDigit (n : Nat) : Char := if n < 10 then Char.ofNat (48 + n) else Char.ofNat (87 + n)

/-- Source: backend_c.rs:12750-12759 -/
def escapeChar (ch : Char) : List Char :=
  if ch = '\\' then ['\\', '\\']
  else if ch = '"' then ['\\', '"']
  else if ch = '\n' then ['\\', 'n']
  else if ch = '\r' then ['\\', 'r']
  else if ch = '\t' then ['\\', 't']
  else if ch.toNat < 0x20 then
    ['\\', 'x', hexDigit (ch.toNat / 16), hexDigit (ch.toNat % 16)]
  else [ch]

/-- Source: backend_c.rs:12748-12762 -/
def escapeCString (text : List Char) : List Char := text.flatMap escapeChar

/-- The bytes of a text. -/
def utf8 (text : List Char) : List UInt8 := text.flatMap String.utf8EncodeChar

/-- The literal of a text that is printed or a value. Source: backend_c.rs:8378-8380, 8460 -/
def strLiteral (text : List Char) : List Char := '"' :: escapeCString text ++ ['"']

/-- What the format of a failed assertion starts with. Source: backend_c.rs:7732 -/
def assertPrefix : List Char := "assertion failed: ".toList

/-- The format of a failed assertion with a message. Source: backend_c.rs:7732-7734 -/
def assertFormat (msg : List Char) : List Char :=
  '"' :: assertPrefix ++ escapeCString msg ++ ['\\', 'n', '"']

/-- Source: backend_c.rs:10273-10287 -/
def parseInt (s : CText) : Option Int :=
  if (strtoll s.bytes).2 ≠ s.bytes ∧ (strtoll s.bytes).2 = [] ∧ s.bytes ≠ [] then
    some (strtoll s.bytes).1
  else none

end Vani.Backend
