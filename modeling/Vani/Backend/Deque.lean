import Vani.Backend.Vec

/-!
# The emitted deque

`intent_deque_i64`: a ring buffer, doubled when it is full. Cells are as in a vector, empty
until the code writes them. The size of an array in bytes stays below `2 ^ 63`, so indices
and sizes are natural numbers here; a remainder by zero is undefined.
-/

set_option autoImplicit false

namespace Vani.Backend

open Vani.Library

/-- Source: backend_c.rs:814 -/
structure Deque where
  data : Array (Option Int64)
  front : Nat
  len : Nat
  capacity : Nat
  deriving DecidableEq

namespace Deque

/-- Source: backend_c.rs:815-817 -/
def new : Deque := ⟨#[], 0, 0, 0⟩

/-- `i % n`. -/
def wrap (i n : Nat) : Outcome Nat := if n = 0 then .stuck else pure (i % n)

/-- The capacity after a growth. Source: backend_c.rs:823 -/
def grownCapacity (capacity : Nat) : Nat := if capacity = 0 then 4 else capacity * 2

/-- Source: backend_c.rs:822-834 -/
def grow (heap : Nat → Bool) (d : Deque) : Outcome Deque :=
  let n := grownCapacity d.capacity
  if malloc heap (n * 8) then do
    let data ← Outcome.forRange
      (fun i new => do
        let x ← Vec.load d.data (← wrap (d.front + i) d.capacity)
        Outcome.write new i (some x))
      d.len (Array.replicate n none)
    pure { d with data, front := 0, capacity := n }
  else .aborted

/-- Room for one more element. Source: backend_c.rs:836, 843 -/
def reserve (heap : Nat → Bool) (d : Deque) : Outcome Deque :=
  if d.capacity ≤ d.len then d.grow heap else pure d

/-- Source: backend_c.rs:835-841 -/
def pushBack (heap : Nat → Bool) (d : Deque) (v : Int64) : Outcome (Int × Deque) := do
  let d ← d.reserve heap
  let back ← wrap (d.front + d.len) d.capacity
  let data ← Outcome.write d.data back (some v)
  pure (toInt64 (d.len + 1), { d with data, len := d.len + 1 })

/-- Source: backend_c.rs:842-848 -/
def pushFront (heap : Nat → Bool) (d : Deque) (v : Int64) : Outcome (Int × Deque) := do
  let d ← d.reserve heap
  let front ← wrap (d.front + d.capacity - 1) d.capacity
  let data ← Outcome.write d.data front (some v)
  pure (toInt64 (d.len + 1), { d with data, front, len := d.len + 1 })

/-- Source: backend_c.rs:851-859 -/
def clear (d : Deque) : Int × Deque := (toInt64 d.len, new)

/-- Source: backend_c.rs:860-862 -/
def length (d : Deque) : Int := toInt64 d.len

/-- Source: backend_c.rs:867-874 -/
def popBack (d : Deque) : Outcome (Option Int64 × Deque) :=
  if d.len = 0 then pure (none, d)
  else do
    let back ← wrap (d.front + (d.len - 1)) d.capacity
    let x ← Vec.load d.data back
    pure (some x, { d with len := d.len - 1 })

/-- Source: backend_c.rs:875-882 -/
def popFront (d : Deque) : Outcome (Option Int64 × Deque) :=
  if d.len = 0 then pure (none, d)
  else do
    let x ← Vec.load d.data d.front
    let front ← wrap (d.front + 1) d.capacity
    pure (some x, { d with front, len := d.len - 1 })

/-- Source: backend_c.rs:883-889 -/
def peekBack (d : Deque) : Outcome (Option Int64) :=
  if d.len = 0 then pure none
  else do
    let back ← wrap (d.front + d.len - 1) d.capacity
    let x ← Vec.load d.data back
    pure (some x)

/-- Source: backend_c.rs:890-895 -/
def peekFront (d : Deque) : Outcome (Option Int64) :=
  if d.len = 0 then pure none
  else do
    let x ← Vec.load d.data d.front
    pure (some x)

end Deque

/-- The operations of a deque. -/
inductive DequeOp
  | new
  | pushFront (v : Int64)
  | pushBack (v : Int64)
  | popFront
  | popBack
  | peekFront
  | peekBack
  | len
  | clear

/-- What an operation returns; `Option<i64>` results are options. -/
inductive DequeResult
  | unit
  | int (n : Int)
  | value (v : Option Int64)
  deriving DecidableEq

/-- One operation on the emitted deque, under a heap. -/
def Deque.step (d : Deque) : DequeOp × (Nat → Bool) → Outcome (DequeResult × Deque)
  | (.new, _) => pure (.unit, new)
  | (.pushFront v, heap) => do
    let (n, d) ← d.pushFront heap v
    pure (.int n, d)
  | (.pushBack v, heap) => do
    let (n, d) ← d.pushBack heap v
    pure (.int n, d)
  | (.popFront, _) => do
    let (v, d) ← d.popFront
    pure (.value v, d)
  | (.popBack, _) => do
    let (v, d) ← d.popBack
    pure (.value v, d)
  | (.peekFront, _) => do
    let v ← d.peekFront
    pure (.value v, d)
  | (.peekBack, _) => do
    let v ← d.peekBack
    pure (.value v, d)
  | (.len, _) => pure (.int d.length, d)
  | (.clear, _) =>
    let (n, d) := d.clear
    pure (.int n, d)

/-- A push that grows the deque finds no memory. -/
def Deque.refused (d : Deque) : DequeOp × (Nat → Bool) → Prop
  | (.pushFront _, heap) | (.pushBack _, heap) =>
    d.capacity ≤ d.len ∧ malloc heap (grownCapacity d.capacity * 8) = false
  | _ => False

end Vani.Backend
