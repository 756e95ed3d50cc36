import Vani.Backend.Vec

/-!
# The emitted sort

`sort` and `sort_by` on `Vec<i64>` and on `[i64; N]`: a quicksort with Hoare's partition and
an insertion sort for segments of at most sixteen elements. The two versions of the code differ
only in the buffer they get: all cells of an array hold elements, those of a vector up to
`len`. Positions are `int64_t` and may come to stand before the buffer; an access there, past
the buffer or to a cell never written is stuck.
-/

set_option autoImplicit false

namespace Vani.Backend

open Vani.Library

namespace Sorting

/-- `int64_t (*)(int64_t, int64_t)`: negative, zero or positive.
Source: backend_c.rs:3723, 5872 -/
abbrev Comparator : Type := Int64 → Int64 → Int64

/-- The cells that are sorted. -/
abbrev Buffer : Type := Array (Option Int64)

/-- `a[i]` -/
def load (a : Buffer) (i : Int) : Outcome Int64 :=
  if 0 ≤ i then Vec.load a i.toNat else .stuck

/-- `a[i] = x` -/
def store (a : Buffer) (i : Int) (x : Int64) : Outcome Buffer :=
  if 0 ≤ i then Outcome.write a i.toNat (some x) else .stuck

/-- Source: backend_c.rs:3724-3726, 5876-5878 -/
def cmpAscending : Comparator := fun a b =>
  (if b < a then 1 else 0) - (if a < b then 1 else 0)

/-- One turn of `while (j >= lo && cmp(a[j], key) > 0)`.
Source: backend_c.rs:3733-3736, 5890-5893 -/
def shiftTurn (cmp : Comparator) (lo : Int) (key : Int64) :
    Buffer × Int → Outcome ((Buffer × Int) ⊕ (Buffer × Int))
  | (a, j) =>
    if lo ≤ j then do
      let x ← load a j
      if 0 < cmp x key then
        let a ← store a (j + 1) x
        pure (.inl (a, j - 1))
      else pure (.inr (a, j))
    else pure (.inr (a, j))

/-- The element at `i` goes to its place among the ones from `lo` on.
Source: backend_c.rs:3731-3737, 5888-5894 -/
def insertAt (cmp : Comparator) (lo i : Int) (a : Buffer) : Outcome Buffer := do
  let key ← load a i
  let (a, j) ← Outcome.loop (shiftTurn cmp lo key) (a.size + 2) (a, i - 1)
  store a (j + 1) key

/-- Source: backend_c.rs:3730-3738, 5887-5895 -/
def insertionSort (cmp : Comparator) (a : Buffer) (lo hi : Int) : Outcome Buffer :=
  Outcome.forRange (fun k a => insertAt cmp lo (lo + 1 + k) a) (hi - lo).toNat a

/-- `do { i++; } while (cmp(a[i], pivot) < 0);` Source: backend_c.rs:3746, 5903 -/
def scanUp (cmp : Comparator) (a : Buffer) (pivot : Int64) (i : Int) : Outcome Int :=
  Outcome.loop
    (fun i => do
      let x ← load a (i + 1)
      if cmp x pivot < 0 then pure (.inl (i + 1)) else pure (.inr (i + 1)))
    (a.size + 2) i

/-- `do { j--; } while (cmp(a[j], pivot) > 0);` Source: backend_c.rs:3747, 5904 -/
def scanDown (cmp : Comparator) (a : Buffer) (pivot : Int64) (j : Int) : Outcome Int :=
  Outcome.loop
    (fun j => do
      let x ← load a (j - 1)
      if 0 < cmp x pivot then pure (.inl (j - 1)) else pure (.inr (j - 1)))
    (a.size + 2) j

/-- `tmp = a[i]; a[i] = a[j]; a[j] = tmp;` Source: backend_c.rs:3749, 5906 -/
def exchange (a : Buffer) (i j : Int) : Outcome Buffer := do
  let x ← load a i
  let y ← load a j
  let a ← store a i y
  store a j x

/-- One turn of the partition. Source: backend_c.rs:3746-3749, 5903-5906 -/
def partitionTurn (cmp : Comparator) (pivot : Int64) :
    Buffer × Int × Int → Outcome ((Buffer × Int × Int) ⊕ (Buffer × Int))
  | (a, i, j) => do
    let i ← scanUp cmp a pivot i
    let j ← scanDown cmp a pivot j
    if j ≤ i then pure (.inr (a, j))
    else do
      let a ← exchange a i j
      pure (.inl (a, i, j))

/-- The partition of a segment, and the last position of its left part.
Source: backend_c.rs:3743-3750, 5900-5907 -/
def partition (cmp : Comparator) (pivot : Int64) (a : Buffer) (lo hi : Int) :
    Outcome (Buffer × Int) :=
  Outcome.loop (partitionTurn cmp pivot) (a.size + 2) (a, lo - 1, hi + 1)

/-- The sort of a segment, with a bound on the turns. A further turn of its loop is a call for
the part that is left. Source: backend_c.rs:3727-3759, 5884-5917 -/
def qsortImpl (cmp : Comparator) : Nat → Buffer → Int → Int → Outcome Buffer
  | 0, _, _, _ => .stuck
  | fuel + 1, a, lo, hi =>
    if lo < hi then
      if hi - lo < 16 then insertionSort cmp a lo hi
      else do
        let pivot ← load a (lo + (hi - lo) / 2)
        let (a, j) ← partition cmp pivot a lo hi
        if j - lo < hi - (j + 1) then do
          let a ← qsortImpl cmp fuel a lo j
          qsortImpl cmp fuel a (j + 1) hi
        else do
          let a ← qsortImpl cmp fuel a (j + 1) hi
          qsortImpl cmp fuel a lo j
    else pure a

/-- The sort of the first `n` cells. -/
def sortCells (cmp : Comparator) (a : Buffer) (n : Nat) : Outcome Buffer :=
  if 1 < n then qsortImpl cmp (n + 1) a 0 (toInt64 n - 1) else pure a

/-- `intent_array_int64_t__sort_by` Source: backend_c.rs:3764-3767 -/
def arraySortBy (cmp : Comparator) (a : Buffer) (n : Nat) : Outcome (Int × Buffer) := do
  let a ← sortCells cmp a n
  pure (0, a)

/-- `intent_array_int64_t__sort` Source: backend_c.rs:3760-3763 -/
def arraySort (a : Buffer) (n : Nat) : Outcome (Int × Buffer) := arraySortBy cmpAscending a n

/-- `intent_vec_int64_t__sort_by` Source: backend_c.rs:5929-5935 -/
def vecSortBy (cmp : Comparator) (v : Vec Int64) : Outcome (Int × Vec Int64) := do
  let data ← sortCells cmp v.data v.len
  pure (0, { v with data })

/-- `intent_vec_int64_t__sort` Source: backend_c.rs:5920-5926 -/
def vecSort (v : Vec Int64) : Outcome (Int × Vec Int64) := vecSortBy cmpAscending v

end Sorting

end Vani.Backend
