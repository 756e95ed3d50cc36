import Vani.Backend.Vec
import Vani.Backend.BinaryHeap

/-!
# Queries of the emitted vectors

`vec_filter`, which asks its predicate about every element twice, once to count the answers
and once to copy the elements, and `binary_search`. A predicate is a function value of the
program: a call may print or draw random numbers, so its answer depends on a state of the
world that the call changes, and it may not return at all.
-/

set_option autoImplicit false

namespace Vani.Backend

open Vani.Library

/-- A predicate value over the states of the world; `none` is a call that ends the program. -/
abbrev Predicate (ω : Type) := ω → Int64 → Option (Bool × ω)

namespace Vec

section Filter

variable {ω : Type} (p : Predicate ω)

/-- `p(x)`. -/
def ask (w : ω) (x : Int64) : Outcome (Bool × ω) :=
  match p w x with
  | some answer => pure answer
  | none => .aborted

/-- A turn of the first loop. Source: backend_c.rs:6202-6204 -/
def countTurn (v : Vec Int64) (i : Nat) : Nat × ω → Outcome (Nat × ω)
  | (hits, w) => do
    let x ← load v.data i
    let (yes, w) ← ask p w x
    pure (if yes then hits + 1 else hits, w)

/-- A turn of the second loop. Source: backend_c.rs:6211-6213 -/
def fillTurn (v : Vec Int64) (i : Nat) :
    Nat × Array (Option Int64) × ω → Outcome (Nat × Array (Option Int64) × ω)
  | (n, data, w) => do
    let x ← load v.data i
    let (yes, w) ← ask p w x
    if yes then
      let x ← load v.data i
      let data ← Outcome.write data n (some x)
      pure (n + 1, data, w)
    else pure (n, data, w)

/-- Source: backend_c.rs:6198-6217 -/
def filter (heap : Nat → Bool) (v : Vec Int64) (w : ω) : Outcome (Vec Int64 × ω) := do
  let (hits, w) ← Outcome.forRange (countTurn p v) v.len (0, w)
  if hits = 0 then pure (⟨#[], 0, 0⟩, w)
  else if malloc heap (hits * 8) then
    let (_, data, w) ←
      Outcome.forRange (fillTurn p v) v.len (0, Array.replicate hits none, w)
    pure (⟨data, hits, hits⟩, w)
  else .aborted

end Filter

/-- A signed result, undefined where `int64_t` does not have it. -/
def signed (x : Int) : Outcome Int := if cLong.Fits x then .done x else .stuck

/-- `data[mid]`, stuck for an index that is not one of an element. -/
def element (v : Vec Int64) (mid : Int) : Outcome Int64 :=
  if 0 ≤ mid ∧ mid < v.len then load v.data mid.toNat else .stuck

/-- A turn of the search. Source: backend_c.rs:11930 -/
def searchTurn (v : Vec Int64) (n : Int64) : Int × Int → Outcome ((Int × Int) ⊕ Option Int)
  | (lo, hi) =>
    if lo ≤ hi then do
      let width ← signed (hi - lo)
      let mid ← signed (lo + width.tdiv 2)
      let x ← v.element mid
      if x = n then pure (.inr (some mid))
      else if x < n then
        let lo ← signed (mid + 1)
        pure (.inl (lo, hi))
      else
        let hi ← signed (mid - 1)
        pure (.inl (lo, hi))
    else pure (.inr none)

/-- Source: backend_c.rs:11914-11936 -/
def binarySearch (v : Vec Int64) (n : Int64) : Outcome (Option Int) := do
  let hi ← signed (toInt64 v.len - 1)
  Outcome.loop (searchTurn v n) (v.len + 1) (0, hi)

end Vec

/-!
## The heap helpers of the emitted vectors

A vector of `int64_t` used as a binary heap: `heapify` brings any content into heap order,
`heap_push` and `heap_pop` keep it, `heap_peek` looks at the first element. A turn of a sift
is the one of the emitted binary heap.
-/

namespace Vec

/-- Source: backend_c.rs:6365-6372 -/
def heapSiftUp (v : Vec Int64) (i : Nat) : Outcome (Vec Int64) := do
  let data ← Outcome.loop BinaryHeap.siftUpTurn (i + 1) (i, v.data)
  pure { v with data }

/-- Source: backend_c.rs:6373-6385 -/
def heapSiftDown (v : Vec Int64) (i : Nat) : Outcome (Vec Int64) := do
  let data ← Outcome.loop (BinaryHeap.siftDownTurn v.len) (v.len + 1) (i, v.data)
  pure { v with data }

/-- Source: backend_c.rs:6386-6396 -/
def heapPush (heap : Nat → Bool) (v : Vec Int64) (x : Int64) : Outcome (Int × Vec Int64) := do
  let v ← v.reserve 8 heap
  let data ← Outcome.write v.data v.len (some x)
  let v : Vec Int64 := { v with data, len := v.len + 1 }
  let v ← v.heapSiftUp (v.len - 1)
  pure (toInt64 v.len, v)

/-- The positions below `n`, the last first. Source: backend_c.rs:6399-6401 -/
def heapifyBelow : Nat → Vec Int64 → Outcome (Vec Int64)
  | 0, v => pure v
  | i + 1, v => do heapifyBelow i (← v.heapSiftDown i)

/-- Source: backend_c.rs:6397-6403 -/
def heapify (v : Vec Int64) : Outcome (Int × Vec Int64) :=
  if v.len < 2 then pure (0, v)
  else do
    let v ← heapifyBelow (v.len / 2) v
    pure (0, v)

/-- Source: backend_c.rs:6411-6422 -/
def heapPop (v : Vec Int64) : Outcome (Option Int64 × Vec Int64) :=
  if v.len = 0 then pure (none, v)
  else do
    let top ← load v.data 0
    let v := { v with len := v.len - 1 }
    if 0 < v.len then
      let last ← load v.data v.len
      let data ← Outcome.write v.data 0 (some last)
      let v ← heapSiftDown { v with data } 0
      pure (some top, v)
    else pure (some top, v)

/-- Source: backend_c.rs:6423-6428 -/
def heapPeek (v : Vec Int64) : Outcome (Option Int64) :=
  if v.len = 0 then pure none
  else do
    let x ← load v.data 0
    pure (some x)

/-- Popping until a pop finds nothing, with a bound on the pops. -/
def heapDrain : Nat → Vec Int64 → Outcome (List Int64 × Vec Int64)
  | 0, _ => .stuck
  | fuel + 1, v => do
    let (x, v) ← v.heapPop
    match x with
    | none => pure ([], v)
    | some x => do
      let (xs, v) ← heapDrain fuel v
      pure (x :: xs, v)

end Vec

end Vani.Backend
