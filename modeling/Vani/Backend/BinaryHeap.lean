import Vani.Backend.BTree

/-!
# The emitted binary heap

`intent_binary_heap_i64`: the elements in one array in which no element is less than its
parent. A push puts the new element behind the last and sifts it up, a pop puts the last
element in the first place and sifts it down.
-/

set_option autoImplicit false

namespace Vani.Backend

open Vani.Library

/-- Laid out like a vector. Source: backend_c.rs:1836 -/
abbrev BinaryHeap := Vec Int64

namespace BinaryHeap

/-- Source: backend_c.rs:1837-1839 -/
def new : BinaryHeap := ⟨#[], 0, 0⟩

/-- `data[i]` and `data[j]` change places. Source: backend_c.rs:1857, 1899 -/
def exchange (data : Array (Option Int64)) (i j : Nat) : Outcome (Array (Option Int64)) := do
  let t ← Vec.load data i
  let x ← Vec.load data j
  let data ← Outcome.write data i (some x)
  Outcome.write data j (some t)

/-- One turn of the sift in a push. Source: backend_c.rs:1854-1859 -/
def siftUpTurn : Nat × Array (Option Int64) →
    Outcome ((Nat × Array (Option Int64)) ⊕ Array (Option Int64))
  | (i, data) =>
    if 0 < i then do
      let x ← Vec.load data i
      let y ← Vec.load data ((i - 1) / 2)
      if y ≤ x then pure (.inr data)
      else
        let data ← exchange data i ((i - 1) / 2)
        pure (.inl ((i - 1) / 2, data))
    else pure (.inr data)

/-- Source: backend_c.rs:1844-1861 -/
def push (heap : Nat → Bool) (h : BinaryHeap) (v : Int64) : Outcome (Int × BinaryHeap) := do
  let h ← BTree.reserve 4 heap h
  let data ← Outcome.write h.data h.len (some v)
  let data ← Outcome.loop siftUpTurn (h.len + 1) (h.len, data)
  pure (toInt64 (h.len + 1), { h with data, len := h.len + 1 })

/-- Source: backend_c.rs:1864-1871 -/
def clear (h : BinaryHeap) : Int × BinaryHeap := (toInt64 h.len, new)

/-- Source: backend_c.rs:1872-1874 -/
def length (h : BinaryHeap) : Int := toInt64 h.len

/-- Source: backend_c.rs:1878-1882 -/
def peek (h : BinaryHeap) : Outcome (Option Int64) :=
  if h.len = 0 then pure none
  else do
    let x ← Vec.load h.data 0
    pure (some x)

/-- The child if there is one and its element is less. Source: backend_c.rs:1896-1897 -/
def smaller (data : Array (Option Int64)) (len smallest child : Nat) : Outcome Nat :=
  if child < len then do
    let x ← Vec.load data child
    let y ← Vec.load data smallest
    pure (if x < y then child else smallest)
  else pure smallest

/-- One turn of the sift in a pop. Source: backend_c.rs:1892-1901 -/
def siftDownTurn (len : Nat) : Nat × Array (Option Int64) →
    Outcome ((Nat × Array (Option Int64)) ⊕ Array (Option Int64))
  | (i, data) => do
    let smallest ← smaller data len i (2 * i + 1)
    let smallest ← smaller data len smallest (2 * i + 2)
    if smallest = i then pure (.inr data)
    else
      let data ← exchange data i smallest
      pure (.inl (smallest, data))

/-- Source: backend_c.rs:1883-1904 -/
def pop (h : BinaryHeap) : Outcome (Option Int64 × BinaryHeap) :=
  if h.len = 0 then pure (none, h)
  else do
    let r ← Vec.load h.data 0
    if 0 < h.len - 1 then
      let last ← Vec.load h.data (h.len - 1)
      let data ← Outcome.write h.data 0 (some last)
      let data ← Outcome.loop (siftDownTurn (h.len - 1)) h.len (0, data)
      pure (some r, { h with data, len := h.len - 1 })
    else pure (some r, { h with len := h.len - 1 })

end BinaryHeap

/-- The operations on a heap. -/
inductive BinaryHeapOp
  | new
  | push (v : Int64)
  | pop
  | peek
  | len
  | clear

/-- What an operation returns. -/
inductive BinaryHeapResult
  | unit
  | int (n : Int)
  | value (v : Option Int64)
  deriving DecidableEq

/-- One operation on the emitted heap, under a heap of memory. -/
def BinaryHeap.step (h : BinaryHeap) : BinaryHeapOp × (Nat → Bool) →
    Outcome (BinaryHeapResult × BinaryHeap)
  | (.new, _) => pure (.unit, BinaryHeap.new)
  | (.push v, heap) => do
    let (n, h) ← BinaryHeap.push heap h v
    pure (.int n, h)
  | (.pop, _) => do
    let (v, h) ← BinaryHeap.pop h
    pure (.value v, h)
  | (.peek, _) => do
    let v ← BinaryHeap.peek h
    pure (.value v, h)
  | (.len, _) => pure (.int (BinaryHeap.length h), h)
  | (.clear, _) =>
    let (n, h) := BinaryHeap.clear h
    pure (.int n, h)

/-- The memory an operation asks for is refused. -/
def BinaryHeap.refused (h : BinaryHeap) : BinaryHeapOp × (Nat → Bool) → Prop
  | (.push _, heap) =>
    h.capacity ≤ h.len ∧ malloc heap (BTree.grownCapacity 4 h.capacity * 8) = false
  | _ => False

end Vani.Backend
