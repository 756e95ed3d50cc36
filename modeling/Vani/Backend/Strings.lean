import Vani.Library.CString
import Vani.Backend.Vec

/-!
# The emitted operations on strings

`str_join`, `str_split` and `str_replace`. A pointer into a string is an offset into its
buffer, a null pointer is no buffer, and `size_t` has 64 bits. The strings of a vector each
have a buffer of their own, eight bytes of which are the pointer in the vector.
-/

set_option autoImplicit false

namespace Vani.Backend

open Vani.Library

/-- A vector of owned strings, `intent_vec_owned_str`. -/
abbrev VecStr : Type := Vec (Option TextBuffer)

/-- `sizeof(char*)`. -/
def pointerSize : Nat := 8

/-- The literal that stands for a null pointer. -/
def orEmpty (s : Option TextBuffer) : TextBuffer := s.getD (textBuffer [])

/-- `s ? strlen(s) : 0`. -/
def strlenOrZero : Option TextBuffer → Outcome Nat
  | none => pure 0
  | some s => strlen s 0

/-- A fresh copy of a whole string. Source: backend_c.rs:5196-5198, 5247-5249 -/
def dupText (heap : Nat → Bool) (s : TextBuffer) (len : Nat) : Outcome TextBuffer := do
  let dup ← newText heap ((len + 1) % 2 ^ 64)
  Outcome.copy dup 0 s 0 ((len + 1) % 2 ^ 64)

/-! ## Joining -/

/-- One turn of the first loop. Source: backend_c.rs:5015-5018 -/
def totalTurn (xs : VecStr) (i total : Nat) : Outcome Nat := do
  match ← Vec.load xs.data i with
  | none => pure total
  | some s => pure ((total + (← strlen s 0)) % 2 ^ 64)

/-- The separator before a string other than the first. Source: backend_c.rs:5024-5027 -/
def joinSep (sep : Option TextBuffer) (sepL i : Nat) (out : TextBuffer) (p : Nat) :
    Outcome (TextBuffer × Nat) :=
  if 0 < i ∧ 0 < sepL then do
    let out ← Outcome.copy out p (orEmpty sep) 0 sepL
    pure (out, p + sepL)
  else pure (out, p)

/-- One turn of the second loop. Source: backend_c.rs:5023-5034 -/
def joinTurn (xs : VecStr) (sep : Option TextBuffer) (sepL i : Nat) (st : TextBuffer × Nat) :
    Outcome (TextBuffer × Nat) := do
  let (out, p) ← joinSep sep sepL i st.1 st.2
  match ← Vec.load xs.data i with
  | none => pure (out, p)
  | some s =>
    let sl ← strlen s 0
    let out ← Outcome.copy out p s 0 sl
    pure (out, p + sl)

/-- Source: backend_c.rs:5003-5039 -/
def strJoin (heap : Nat → Bool) (xs : Option VecStr) (sep : Option TextBuffer) :
    Outcome TextBuffer :=
  match xs with
  | none => do Outcome.write (← newText heap 1) 0 (some 0)
  | some xs =>
    if xs.len = 0 then do Outcome.write (← newText heap 1) 0 (some 0)
    else do
      let sepL ← strlenOrZero sep
      let sum ← Outcome.forRange (totalTurn xs) xs.len 0
      let total := if 1 < xs.len then (sum + sepL * (xs.len - 1)) % 2 ^ 64 else sum
      let out ← newText heap ((total + 1) % 2 ^ 64)
      let (out, _) ← Outcome.forRange (joinTurn xs sep sepL) xs.len (out, 0)
      Outcome.write out total (some 0)

/-! ## Splitting -/

/-- A fresh string of `span` bytes. Source: backend_c.rs:5210-5213 -/
def dupSpan (heap : Nat → Bool) (s : TextBuffer) (p span : Nat) : Outcome TextBuffer := do
  let dup ← newText heap ((span + 1) % 2 ^ 64)
  let dup ← copySpan dup 0 s p span
  Outcome.write dup span (some 0)

/-- Source: backend_c.rs:5216 -/
def grownPieces (capacity : Nat) : Nat := if capacity = 0 then 4 else capacity * 2

/-- Room for one more piece. Source: backend_c.rs:5215-5219 -/
def reservePiece (heap : Nat → Bool) (out : VecStr) : Outcome VecStr :=
  if out.capacity ≤ out.len then
    if malloc heap (grownPieces out.capacity * pointerSize % 2 ^ 64) then
      pure { out with
        data := out.data ++ Array.replicate (grownPieces out.capacity - out.data.size) none
        capacity := grownPieces out.capacity }
    else .aborted
  else pure out

/-- Source: backend_c.rs:5215-5220 -/
def pushPiece (heap : Nat → Bool) (out : VecStr) (dup : TextBuffer) : Outcome VecStr := do
  let out ← reservePiece heap out
  let data ← Outcome.write out.data out.len (some (some dup))
  pure { out with data, len := out.len + 1 }

/-- The number of bytes up to the delimiter found, or to the end.
Source: backend_c.rs:5209 -/
def spanTo (s : TextBuffer) (p : Nat) : Option Nat → Outcome Nat
  | some m => pure (m - p)
  | none => strlen s p

/-- One turn of the loop: a piece is copied, and the loop goes on behind the delimiter or is
left. Source: backend_c.rs:5207-5223 -/
def splitTurn (heap : Nat → Bool) (s delim : TextBuffer) (dl : Nat) (st : VecStr × Nat) :
    Outcome ((VecStr × Nat) ⊕ VecStr) := do
  let m ← strstr s st.2 delim
  let span ← spanTo s st.2 m
  let dup ← dupSpan heap s st.2 span
  let out ← pushPiece heap st.1 dup
  match m with
  | none => pure (.inr out)
  | some m => pure (.inl (out, m + dl))

/-- Source: backend_c.rs:5185-5227 -/
def strSplit (heap : Nat → Bool) (s delim : Option TextBuffer) : Outcome VecStr := do
  let dl ← strlenOrZero delim
  let sl ← strlen (orEmpty s) 0
  if dl = 0 then
    let dup ← dupText heap (orEmpty s) sl
    if malloc heap (4 * pointerSize) then pure ⟨#[some (some dup), none, none, none], 1, 4⟩
    else .aborted
  else Outcome.loop (splitTurn heap (orEmpty s) (orEmpty delim) dl) (sl + 1) (⟨#[], 0, 0⟩, 0)

/-! ## Replacing -/

/-- One turn of the first pass. Source: backend_c.rs:5257-5262 -/
def countTurn (s from' : TextBuffer) (fnLen : Nat) (st : Nat × Nat) :
    Outcome ((Nat × Nat) ⊕ Nat) := do
  match ← strstr s st.2 from' with
  | none => pure (.inr st.1)
  | some m => pure (.inl ((st.1 + 1) % 2 ^ 64, m + fnLen))

/-- The number of matches. Source: backend_c.rs:5254-5263 -/
def countHits (s from' : TextBuffer) (fnLen sLen : Nat) : Outcome Nat :=
  Outcome.loop (countTurn s from' fnLen) (sLen + 1) (0, 0)

/-- `s_len + hits * to_len - hits * fn_len`. Source: backend_c.rs:5265 -/
def newLength (sLen hits toLen fnLen : Nat) : Nat :=
  (UInt64.ofNat sLen + UInt64.ofNat hits * UInt64.ofNat toLen
    - UInt64.ofNat hits * UInt64.ofNat fnLen).toNat

/-- One turn of the second pass: the bytes up to a match and the replacement are copied, and
behind the last match the tail. The state is the buffer, the place in it and the place in `s`.
Source: backend_c.rs:5271-5284 -/
def copyTurn (s from' to' : TextBuffer) (fnLen toLen : Nat) (st : TextBuffer × Nat × Nat) :
    Outcome ((TextBuffer × Nat × Nat) ⊕ TextBuffer) := do
  let (out, dst, src) := st
  match ← strstr s src from' with
  | none =>
    let tail ← strlen s src
    let out ← copySpan out dst s src tail
    pure (.inr (← Outcome.write out (dst + tail) (some 0)))
  | some m =>
    let out ← copySpan out dst s src (m - src)
    let out ← copySpan out (dst + (m - src)) to' 0 toLen
    pure (.inl (out, dst + (m - src) + toLen, m + fnLen))

/-- Source: backend_c.rs:5237-5288 -/
def strReplace (heap : Nat → Bool) (s from' to' : Option TextBuffer) : Outcome TextBuffer := do
  let fnLen ← strlen (orEmpty from') 0
  let sLen ← strlen (orEmpty s) 0
  if fnLen = 0 then dupText heap (orEmpty s) sLen
  else
    let toLen ← strlen (orEmpty to') 0
    let hits ← countHits (orEmpty s) (orEmpty from') fnLen sLen
    let out ← newText heap ((newLength sLen hits toLen fnLen + 1) % 2 ^ 64)
    Outcome.loop (copyTurn (orEmpty s) (orEmpty from') (orEmpty to') fnLen toLen) (sLen + 1)
      (out, 0, 0)

end Vani.Backend
