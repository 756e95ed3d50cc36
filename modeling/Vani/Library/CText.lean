import Mathlib.Data.List.TakeWhile
import Vani.Library.CInteger

/-!
# Texts of C and the numerals in them

A C string is the bytes before its NUL. `strtoll` skips white space, takes a sign and the
digits after it, and leaves the end pointer behind them; where there is no digit it converts
nothing and the end pointer is the start. A value that `long long` does not have becomes the
nearest one it has.
-/

set_option autoImplicit false

namespace Vani.Library

/-- The bytes of a C string, without the NUL that ends it. -/
structure CText where
  bytes : List UInt8
  noNul : 0 ∉ bytes

/-- `isspace` in the C locale. -/
def isSpace (c : UInt8) : Bool := c == 32 || (9 ≤ c && c ≤ 13)

/-- `isdigit`. -/
def isDigit (c : UInt8) : Bool := 48 ≤ c && c ≤ 57

/-- An optional sign, true for a minus, and what follows it. -/
def splitSign : List UInt8 → Bool × List UInt8
  | 45 :: s => (true, s)
  | 43 :: s => (false, s)
  | s => (false, s)

/-- The value of a sequence of decimal digits. -/
def digitsValue (ds : List UInt8) : Nat := ds.foldl (fun n d => 10 * n + (d.toNat - 48)) 0

/-- The value of digits under a sign. -/
def signedValue (minus : Bool) (ds : List UInt8) : Int :=
  if minus then -(digitsValue ds : Int) else digitsValue ds

/-- The value of an optional sign followed by one or more decimal digits. -/
def numeral (s : List UInt8) : Option Int :=
  if (splitSign s).2 ≠ [] ∧ (splitSign s).2.all isDigit then
    some (signedValue (splitSign s).1 (splitSign s).2)
  else none

/-- The nearest value of a type. -/
def saturate (t : IntType) (x : Int) : Int := max t.lo (min x t.hi)

theorem saturate_of_fits {t : IntType} {x : Int} (h : t.Fits x) : saturate t x = x := by
  obtain ⟨hlo, hhi⟩ := h
  unfold saturate
  rw [min_eq_left hhi, max_eq_right hlo]

theorem saturate_fits {t : IntType} (ht : t.lo ≤ t.hi) (x : Int) : t.Fits (saturate t x) :=
  ⟨le_max_left _ _, max_le ht (min_le_right _ _)⟩

/-- `strtoll(s, &end, 10)`: the value, and the bytes from the end pointer on. -/
def strtoll (s : List UInt8) : Int × List UInt8 :=
  let (minus, rest) := splitSign (s.dropWhile isSpace)
  let ds := rest.takeWhile isDigit
  if ds = [] then (0, s) else (saturate cLong (signedValue minus ds), rest.dropWhile isDigit)

/-- A numeral behind white space converts to its end. -/
theorem strtoll_numeral {s : List UInt8} {x : Int} (h : numeral (s.dropWhile isSpace) = some x) :
    strtoll s = (saturate cLong x, []) ∧ s ≠ [] := by
  unfold numeral at h
  split at h
  · next hdigits =>
    obtain ⟨hne, hall⟩ := hdigits
    have hall' : ∀ d ∈ (splitSign (s.dropWhile isSpace)).2, isDigit d = true :=
      List.all_eq_true.mp hall
    cases h
    constructor
    · unfold strtoll
      dsimp only
      rw [List.takeWhile_eq_self_iff.mpr hall', if_neg hne, List.dropWhile_eq_nil_iff.mpr hall']
    · rintro rfl
      exact hne rfl
  · cases h

/-- Only a numeral behind white space converts to its end. -/
theorem numeral_of_strtoll {s : List UInt8} (hend : (strtoll s).2 = []) (hs : s ≠ []) :
    ∃ x, numeral (s.dropWhile isSpace) = some x := by
  unfold strtoll at hend
  dsimp only at hend
  split at hend
  · exact absurd hend hs
  · next hds =>
    refine ⟨_, if_pos ⟨fun hnil => hds (by rw [hnil]; rfl), ?_⟩⟩
    exact List.all_eq_true.mpr (List.dropWhile_eq_nil_iff.mp hend)

/-- A numeral does not start with white space. -/
theorem numeral_no_space {s : List UInt8} {x : Int} (h : numeral s = some x) :
    s.dropWhile isSpace = s := by
  unfold numeral at h
  split at h
  · next hdigits =>
    obtain ⟨hne, hall⟩ := hdigits
    cases s with
    | nil => rfl
    | cons c s =>
      refine List.dropWhile_cons_of_neg fun hspace => ?_
      have hsign : splitSign (c :: s) = (false, c :: s) := by
        unfold splitSign
        split
        · next heq =>
          cases heq
          exact absurd hspace (by decide)
        · next heq =>
          cases heq
          exact absurd hspace (by decide)
        · rfl
      rw [hsign] at hall
      have hdigit : isDigit c = true := List.all_eq_true.mp hall c List.mem_cons_self
      unfold isSpace at hspace
      unfold isDigit at hdigit
      simp only [Bool.or_eq_true, Bool.and_eq_true, beq_iff_eq, decide_eq_true_eq,
        UInt8.le_iff_toNat_le, UInt8.reduceToNat] at hspace hdigit
      rcases hspace with rfl | hspace
      · exact absurd hdigit.1 (by decide)
      · omega
  · cases h

end Vani.Library
