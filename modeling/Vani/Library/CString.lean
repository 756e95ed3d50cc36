import Vani.Library.CText
import Vani.Library.Occurrences
import Vani.Library.Outcome

/-!
# Strings in memory

A buffer of bytes, each unwritten until the code writes it. A string is what stands in it up
to the first NUL; where there is none before the end of the buffer, or an unwritten byte comes
first, reading the string is stuck.
-/

set_option autoImplicit false

namespace Vani.Library

/-- A buffer of bytes. -/
abbrev TextBuffer : Type := Array (Option UInt8)

/-- The bytes up to the first NUL. -/
def cString : List (Option UInt8) → Outcome (List UInt8)
  | [] => .stuck
  | none :: _ => .stuck
  | some c :: cells => if c = 0 then pure [] else do pure (c :: (← cString cells))

/-- `strlen(a + p)`. -/
def strlen (a : TextBuffer) (p : Nat) : Outcome Nat := do
  pure (← cString (a.toList.drop p)).length

/-- `strstr(a + p, b)`: the place in `a` that it points to. -/
def strstr (a : TextBuffer) (p : Nat) (b : TextBuffer) : Outcome (Option Nat) := do
  let hay ← cString (a.toList.drop p)
  let needle ← cString b.toList
  pure ((findIn needle hay).map (p + ·))

/-- `malloc(n)` for a buffer of bytes, and `abort` where it is refused. -/
def newText (heap : Nat → Bool) (n : Nat) : Outcome TextBuffer :=
  if malloc heap n then pure (Array.replicate n none) else .aborted

/-- `if (n > 0) memcpy(dst + d, src + p, n)`. -/
def copySpan (dst : TextBuffer) (d : Nat) (src : TextBuffer) (p n : Nat) : Outcome TextBuffer :=
  if 0 < n then Outcome.copy dst d src p n else pure dst

/-- The buffer that holds the bytes and a NUL behind them. -/
def textBuffer (l : List UInt8) : TextBuffer := (l.map some ++ [some 0]).toArray

/-- A string as the code receives it: its buffer is an object, and no object is larger than
`PTRDIFF_MAX`. -/
structure CStr extends CText where
  small : bytes.length + 1 < 2 ^ 63

/-- The buffer of a string. -/
def CStr.buffer (s : CStr) : TextBuffer := textBuffer s.bytes

/-! ## Reading -/

@[simp] theorem size_textBuffer (l : List UInt8) : (textBuffer l).size = l.length + 1 := by
  simp [textBuffer]

theorem textBuffer_getElem? (l : List UInt8) {i : Nat} (hi : i < l.length) :
    (textBuffer l)[i]? = some (some l[i]) := by
  unfold textBuffer
  rw [List.getElem?_toArray, List.getElem?_append_left (by rwa [List.length_map]),
    List.getElem?_map, List.getElem?_eq_getElem hi, Option.map_some]

theorem cString_append {l : List UInt8} (h : 0 ∉ l) :
    cString (l.map some ++ [some 0]) = .done l := by
  induction l with
  | nil => rfl
  | cons c l ih =>
    rw [List.mem_cons, not_or] at h
    rw [List.map_cons, List.cons_append, cString, if_neg (Ne.symm h.1), ih h.2]
    rfl

theorem cString_textBuffer {l : List UInt8} (h : 0 ∉ l) {p : Nat} (hp : p ≤ l.length) :
    cString ((textBuffer l).toList.drop p) = .done (l.drop p) := by
  unfold textBuffer
  rw [List.drop_append_of_le_length (by rwa [List.length_map]), ← List.map_drop]
  exact cString_append fun hmem => h (List.mem_of_mem_drop hmem)

theorem strlen_textBuffer {l : List UInt8} (h : 0 ∉ l) {p : Nat} (hp : p ≤ l.length) :
    strlen (textBuffer l) p = .done (l.length - p) := by
  unfold strlen
  rw [cString_textBuffer h hp, Outcome.done_bind, List.length_drop]
  rfl

theorem strstr_textBuffer {l d : List UInt8} (h : 0 ∉ l) (hd : 0 ∉ d) {p : Nat}
    (hp : p ≤ l.length) :
    strstr (textBuffer l) p (textBuffer d) = .done ((findIn d (l.drop p)).map (p + ·)) := by
  unfold strstr
  have hneedle := cString_textBuffer hd (Nat.zero_le _)
  rw [List.drop_zero, List.drop_zero] at hneedle
  rw [cString_textBuffer h hp, Outcome.done_bind, hneedle]
  rfl

/-! ## Writing -/

/-- The buffer begins with the bytes. -/
def Begins (a : TextBuffer) (l : List UInt8) : Prop :=
  ∀ i (hi : i < l.length), a[i]? = some (some l[i])

theorem begins_nil (a : TextBuffer) : Begins a [] := fun i hi => absurd hi (Nat.not_lt_zero i)

/-- Bytes of a string are copied behind the ones written. -/
theorem Begins.copy {a : TextBuffer} {l t : List UInt8} (h : Begins a l) {p n : Nat}
    (hp : p + n ≤ t.length) (hroom : l.length + n ≤ a.size) :
    ∃ a', Outcome.copy a l.length (textBuffer t) p n = .done a' ∧ a'.size = a.size ∧
      Begins a' (l ++ (t.drop p).take n) := by
  have hsrc : p + n ≤ (textBuffer t).size := by
    rw [size_textBuffer]
    omega
  obtain ⟨a', hcopy, hsize, hget⟩ := Outcome.copy_of_le hsrc hroom
  refine ⟨a', hcopy, hsize, fun i hi => ?_⟩
  rw [hget]
  by_cases hold : i < l.length
  · rw [if_neg (by omega), h i hold, List.getElem_append_left hold]
  · have hi' : i - l.length < ((t.drop p).take n).length := by
      rw [List.length_append] at hi
      omega
    have hn : i - l.length < n := by
      rw [List.length_take] at hi'
      omega
    rw [if_pos ⟨by omega, by omega⟩, textBuffer_getElem? t (by omega),
      List.getElem_append_right (by omega), List.getElem_take, List.getElem_drop]

theorem Begins.copySpan {a : TextBuffer} {l t : List UInt8} (h : Begins a l) {p n : Nat}
    (hp : p + n ≤ t.length) (hroom : l.length + n ≤ a.size) :
    ∃ a', copySpan a l.length (textBuffer t) p n = .done a' ∧ a'.size = a.size ∧
      Begins a' (l ++ (t.drop p).take n) := by
  unfold Library.copySpan
  by_cases hn : 0 < n
  · rw [if_pos hn]
    exact h.copy hp hroom
  · refine ⟨a, if_neg hn, rfl, ?_⟩
    rw [Nat.eq_zero_of_not_pos hn, List.take_zero, List.append_nil]
    exact h

/-- A NUL behind the bytes, at the end of the buffer, makes the buffer of a string. -/
theorem Begins.terminate {a : TextBuffer} {l : List UInt8} (h : Begins a l)
    (hsize : a.size = l.length + 1) : Outcome.write a l.length (some 0) = .done (textBuffer l) := by
  rw [Outcome.write_of_lt (by omega)]
  refine congrArg Outcome.done (Array.ext_getElem? fun i => ?_)
  by_cases hi : i < l.length
  · rw [Array.getElem?_setIfInBounds_ne (by omega), h i hi, textBuffer_getElem? l hi]
  · by_cases hend : i = l.length
    · subst hend
      rw [Array.getElem?_setIfInBounds_self_of_lt (by omega)]
      simp [textBuffer]
    · rw [Array.getElem?_eq_none (by rw [Array.size_setIfInBounds]; omega),
        Array.getElem?_eq_none (by rw [size_textBuffer]; omega)]

/-- A fresh buffer, or no memory for one. -/
theorem newText_returns (heap : Nat → Bool) (n : Nat) :
    Outcome.Returns (newText heap n) (malloc heap n = false) (· = Array.replicate n none) := by
  unfold newText
  cases malloc heap n with
  | false => exact Or.inl ⟨rfl, rfl⟩
  | true => exact Or.inr ⟨_, rfl, rfl⟩

/-- A copy keeps the size of its buffer or is stuck. -/
theorem copySpan_cases (a : TextBuffer) (d : Nat) (b : TextBuffer) (p n : Nat) :
    copySpan a d b p n = .stuck ∨ ∃ a', copySpan a d b p n = .done a' ∧ a'.size = a.size := by
  unfold copySpan
  by_cases hn : 0 < n
  · rw [if_pos hn]
    by_cases h : p + n ≤ b.size ∧ d + n ≤ a.size
    · obtain ⟨a', hcopy, hsize, -⟩ := Outcome.copy_of_le h.1 h.2
      exact Or.inr ⟨a', hcopy, hsize⟩
    · exact Or.inl (if_neg h)
  · rw [if_neg hn]
    exact Or.inr ⟨a, rfl, rfl⟩

end Vani.Library
