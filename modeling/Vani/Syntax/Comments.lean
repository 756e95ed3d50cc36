import Vani.Syntax.Lexer

/-!
# Comments

The scan for comments that tools use beside the lexer, which drops them. It looks at the bytes
of the text and steps over string literals.
-/

set_option autoImplicit false

namespace Vani.Syntax

open Vani.Library

/-- Source: lexer.rs:596-609 -/
structure Comment where
  text : List Char
  span : Span
  deriving DecidableEq

/-- Over the rest of a string literal, to its end or to the end of its line.
Source: lexer.rs:626-642 -/
def skipString : Nat → List UInt8 → Cursor
  | i, [] => ⟨i, []⟩
  | i, byte :: rest =>
    if byte == 0x5C then
      match rest with
      | _ :: rest' => skipString (i + 2) rest'
      | [] => ⟨i + 1, []⟩
    else if byte == 0x22 then ⟨i + 1, rest⟩
    else if byte == 0x0A then ⟨i, byte :: rest⟩
    else skipString (i + 1) rest

theorem length_skipString_le (i : Nat) (rest : List UInt8) :
    (skipString i rest).rest.length ≤ rest.length := by
  induction i, rest using skipString.induct with
  | case1 i => exact Nat.le_refl _
  | case2 i byte hbyte b rest' ih =>
    unfold skipString
    rw [if_pos hbyte]
    show (skipString (i + 2) rest').rest.length ≤ _
    simp only [List.length_cons]
    omega
  | case3 i byte hbyte =>
    unfold skipString
    rw [if_pos hbyte]
    exact Nat.zero_le _
  | case4 i byte rest hslash hquote =>
    unfold skipString
    rw [if_neg hslash, if_pos hquote]
    exact Nat.le_succ _
  | case5 i byte rest hslash hquote hline =>
    unfold skipString
    rw [if_neg hslash, if_neg hquote, if_pos hline]
  | case6 i byte rest hslash hquote hline ih =>
    unfold skipString
    rw [if_neg hslash, if_neg hquote, if_neg hline]
    exact Nat.le_trans ih (Nat.le_succ _)

/-- The comments from the cursor on; `str::from_utf8` of bytes of the source is their text if
they are whole characters. Source: lexer.rs:617-661 -/
def extractFrom (source : List Char) (c : Cursor) : List Comment :=
  match hrest : c.rest with
  | [] => []
  | byte :: rest =>
    if byte == 0x22 then extractFrom source (skipString (c.pos + 1) rest)
    else if byte == asciiByte '/' && (rest[0]?).any (isOneOf ['/']) then
      let stop := skipLineComment c
      ⟨(sliceBytes source c.pos stop.pos).getD [], ⟨c.pos, stop.pos⟩⟩ :: extractFrom source stop
    else extractFrom source ⟨c.pos + 1, rest⟩
termination_by c.rest.length
decreasing_by
  · have h := length_skipString_le (c.pos + 1) rest
    simp only [hrest, List.length_cons]
    omega
  · rename_i hslash
    have hbyte : byte = asciiByte '/' := by
      have h := (Bool.and_eq_true_iff.mp hslash).1
      exact eq_of_beq h
    have hle := (List.dropWhile_suffix (l := rest) (fun byte => byte != 0x0A)).length_le
    simp only [skipLineComment, Cursor.advanceWhile, hrest, hbyte, List.length_cons]
    rw [List.dropWhile_cons_of_pos (by decide)]
    omega
  · simp only [hrest, List.length_cons]
    omega

/-- Source: lexer.rs:617-662 -/
def extractComments (source : List Char) : List Comment := extractFrom source ⟨0, utf8 source⟩

end Vani.Syntax
