import Vani.Library.Outcome
import Vani.Library.CInteger

/-!
# The emitted vectors

`intent_vec_T`: a buffer, the number of elements in it and its capacity. The buffer is an
array of cells, each empty until the code writes it, so a read of memory that was never
written is stuck like an access outside the buffer. A null pointer is a buffer without
cells. Index arguments are `int64_t`: the checked helpers take them as `uint64_t`, the
swap and the removal that keep the order index the buffer with them as they are.
-/

set_option autoImplicit false

namespace Vani.Backend

open Vani.Library

/-- Source: backend_c.rs:5667-5671 -/
structure Vec (α : Type) where
  data : Array (Option α)
  len : Nat
  capacity : Nat

namespace Vec

variable {α : Type}

/-- The element in a cell of the buffer. -/
def load (data : Array (Option α)) (i : Nat) : Outcome α := do
  match ← Outcome.read data i with
  | some x => pure x
  | none => .stuck

/-- `data[i]` for a signed index. -/
def loadAt (data : Array (Option α)) (i : Int64) : Outcome α :=
  if 0 ≤ i.toInt then load data i.toInt.toNat else .stuck

/-- `data[i] = x` for a signed index. -/
def storeAt (data : Array (Option α)) (i : Int64) (x : α) : Outcome (Array (Option α)) :=
  if 0 ≤ i.toInt then Outcome.write data i.toInt.toNat (some x) else .stuck

/-- The capacity after a growth. Source: backend_c.rs:5697, 5728, 5802 -/
def grownCapacity (capacity : Nat) : Nat := if capacity = 0 then 1 else capacity * 2

/-- Room for one more element; `size` is the size of an element in bytes.
Source: backend_c.rs:5696-5700, 5727-5731, 5801-5805 -/
def reserve (size : Nat) (heap : Nat → Bool) (v : Vec α) : Outcome (Vec α) :=
  if v.capacity ≤ v.len then
    if malloc heap (grownCapacity v.capacity * size) then
      pure { v with
        data := v.data ++ Array.replicate (grownCapacity v.capacity - v.data.size) none
        capacity := grownCapacity v.capacity }
    else .aborted
  else pure v

/-- A fresh buffer with `n` cells copied from an array. -/
def allocate (size : Nat) (heap : Nat → Bool) (cells : Nat) (src : Array (Option α)) (s n : Nat) :
    Outcome (Vec α) :=
  if malloc heap (cells * size) then do
    let data ← Outcome.copy (Array.replicate cells none) 0 src s n
    pure ⟨data, n, cells⟩
  else .aborted

/-- `vec(..)` of a literal. Source: backend_c.rs:5673-5683 -/
def fromArray (size : Nat) (heap : Nat → Bool) (init : List α) : Outcome (Vec α) :=
  allocate size heap (max 1 init.length) (init.map some).toArray 0 init.length

/-- Source: backend_c.rs:5694-5706 -/
def push (size : Nat) (heap : Nat → Bool) (v : Vec α) (x : α) : Outcome (Vec α) := do
  let v ← v.reserve size heap
  let data ← Outcome.write v.data v.len (some x)
  pure { v with data, len := v.len + 1 }

/-- Source: backend_c.rs:5725-5737 -/
def pushMut (size : Nat) (heap : Nat → Bool) (v : Vec α) (x : α) : Outcome (Int × Vec α) := do
  let v ← v.push size heap x
  pure (toInt64 v.len, v)

/-- Source: backend_c.rs:5754-5767 -/
def popMut (v : Vec α) : Outcome (α × Vec α) :=
  if v.len = 0 then .aborted
  else do
    let x ← load v.data (v.len - 1)
    pure (x, { v with len := v.len - 1 })

/-- Source: backend_c.rs:6468-6479 -/
def set (v : Vec α) (i : Int64) (x : α) : Outcome (Vec α) :=
  if toUInt64 i < v.len then do
    let data ← Outcome.write v.data (toUInt64 i) (some x)
    pure { v with data }
  else .aborted

/-- Source: backend_c.rs:5778-5788 -/
def swapRemove (v : Vec α) (i : Int64) : Outcome (α × Vec α) :=
  if v.len ≤ toUInt64 i then .aborted
  else do
    let tmp ← load v.data (toUInt64 i)
    if toUInt64 i < v.len - 1 then
      let last ← load v.data (v.len - 1)
      let data ← Outcome.write v.data (toUInt64 i) (some last)
      pure (tmp, { v with data, len := v.len - 1 })
    else pure (tmp, { v with len := v.len - 1 })

/-- The cells from `i` on move up by one, and `i` takes a new element.
Source: backend_c.rs:5806-5807 -/
def openCell (v : Vec α) (i : Nat) (x : α) : Outcome (Array (Option α)) := do
  if i < v.len then
    let data ← Outcome.copy v.data (i + 1) v.data i (v.len - i)
    Outcome.write data i (some x)
  else Outcome.write v.data i (some x)

/-- Source: backend_c.rs:5792-5808 -/
def insert (size : Nat) (heap : Nat → Bool) (v : Vec α) (i : Int64) (x : α) :
    Outcome (Int × Vec α) :=
  if v.len < toUInt64 i then .aborted
  else do
    let v ← v.reserve size heap
    let data ← v.openCell (toUInt64 i) x
    pure (toInt64 (v.len + 1), { v with data, len := v.len + 1 })

/-- Source: backend_c.rs:5826-5832 -/
def clear (v : Vec α) : Int × Vec α := (0, { v with len := 0 })

/-- Source: backend_c.rs:6512-6524 -/
def clone (size : Nat) (heap : Nat → Bool) (v : Vec α) : Outcome (Vec α) :=
  allocate size heap (max 1 v.len) v.data 0 v.len

/-- `n`, not below 0 and not above `len`. Source: backend_c.rs:6164-6165, 6179-6180 -/
def clamp (len : Nat) (n : Int64) : Nat := min n.toInt.toNat len

/-- Source: backend_c.rs:6161-6175 -/
def take (size : Nat) (heap : Nat → Bool) (v : Vec α) (n : Int64) : Outcome (Vec α) :=
  if clamp v.len n = 0 then pure ⟨#[], 0, 0⟩
  else allocate size heap (clamp v.len n) v.data 0 (clamp v.len n)

/-- Source: backend_c.rs:6176-6191 -/
def drop (size : Nat) (heap : Nat → Bool) (v : Vec α) (n : Int64) : Outcome (Vec α) :=
  if v.len - clamp v.len n = 0 then pure ⟨#[], 0, 0⟩
  else allocate size heap (v.len - clamp v.len n) v.data (clamp v.len n) (v.len - clamp v.len n)

/-- Source: backend_c.rs:6043-6056 -/
def chain (size : Nat) (heap : Nat → Bool) (v w : Vec α) : Outcome (Vec α) :=
  if v.len + w.len = 0 then pure ⟨#[], 0, 0⟩
  else do
    let out ← allocate size heap (v.len + w.len) v.data 0 v.len
    let data ← Outcome.copy out.data v.len w.data 0 w.len
    pure { out with data, len := v.len + w.len }

/-- `vec_swap`, which checks no index. Source: backend_c.rs:9812-9820 -/
def swap (v : Vec α) (i j : Int64) : Outcome (Int × Vec α) := do
  let t ← loadAt v.data i
  let u ← loadAt v.data j
  let data ← storeAt v.data i u
  let data ← storeAt data j t
  pure (0, { v with data })

/-- One turn of the loop that closes the gap of a removal.
Source: backend_c.rs:9824 -/
def shiftTurn (len : Nat) :
    Nat × Array (Option α) → Outcome ((Nat × Array (Option α)) ⊕ Array (Option α))
  | (k, data) =>
    if (k + 1) % 2 ^ 64 < len then do
      let x ← load data (k + 1)
      let data ← Outcome.write data k (some x)
      pure (.inl (k + 1, data))
    else pure (.inr data)

/-- `vec_remove_at`, which checks no index either; `len` is unsigned.
Source: backend_c.rs:9821-9828 -/
def removeAt (v : Vec α) (i : Int64) : Outcome (α × Vec α) := do
  let r ← loadAt v.data i
  let data ← Outcome.loop (shiftTurn v.len) (v.len + 1) (toUInt64 i, v.data)
  pure (r, { v with data, len := (v.len + 2 ^ 64 - 1) % 2 ^ 64 })

end Vec

/-! ## Sequences of operations -/

/-- The operations on a store of vectors; `dst` names the vector an operation binds. -/
inductive VecOp (α : Type)
  | fromArray (dst : Nat) (init : List α)
  | push (v : Nat) (x : α)
  | pushMut (v : Nat) (x : α)
  | pop (v : Nat)
  | set (v : Nat) (i : Int64) (x : α)
  | insert (v : Nat) (i : Int64) (x : α)
  | swapRemove (v : Nat) (i : Int64)
  | removeAt (v : Nat) (i : Int64)
  | swap (v : Nat) (i j : Int64)
  | clear (v : Nat)
  | clone (dst v : Nat)
  | take (dst v : Nat) (n : Int64)
  | drop (dst v : Nat) (n : Int64)
  | chain (dst v w : Nat)

/-- What an operation returns, apart from the vector it binds. -/
inductive VecResult (α : Type)
  | unit
  | int (n : Int)
  | element (x : α)
  deriving DecidableEq

/-- The vectors in memory, by name. -/
abbrev VecStore (α : Type) := Nat → Vec α

variable {α : Type}

/-- One operation, under a heap; `size` is the size of an element. -/
def VecStore.step (size : Nat) (s : VecStore α) :
    VecOp α × (Nat → Bool) → Outcome (VecResult α × VecStore α)
  | (.fromArray dst init, heap) => do
    let v ← Vec.fromArray size heap init
    pure (.unit, Function.update s dst v)
  | (.push v x, heap) => do
    let w ← (s v).push size heap x
    pure (.unit, Function.update s v w)
  | (.pushMut v x, heap) => do
    let (n, w) ← (s v).pushMut size heap x
    pure (.int n, Function.update s v w)
  | (.pop v, _) => do
    let (x, w) ← (s v).popMut
    pure (.element x, Function.update s v w)
  | (.set v i x, _) => do
    let w ← (s v).set i x
    pure (.unit, Function.update s v w)
  | (.insert v i x, heap) => do
    let (n, w) ← (s v).insert size heap i x
    pure (.int n, Function.update s v w)
  | (.swapRemove v i, _) => do
    let (x, w) ← (s v).swapRemove i
    pure (.element x, Function.update s v w)
  | (.removeAt v i, _) => do
    let (x, w) ← (s v).removeAt i
    pure (.element x, Function.update s v w)
  | (.swap v i j, _) => do
    let (n, w) ← (s v).swap i j
    pure (.int n, Function.update s v w)
  | (.clear v, _) =>
    let (n, w) := (s v).clear
    pure (.int n, Function.update s v w)
  | (.clone dst v, heap) => do
    let w ← (s v).clone size heap
    pure (.unit, Function.update s dst w)
  | (.take dst v n, heap) => do
    let w ← (s v).take size heap n
    pure (.unit, Function.update s dst w)
  | (.drop dst v n, heap) => do
    let w ← (s v).drop size heap n
    pure (.unit, Function.update s dst w)
  | (.chain dst v w, heap) => do
    let u ← (s v).chain size heap (s w)
    pure (.unit, Function.update s dst u)

/-- The number of elements an operation asks memory for, if any. -/
def VecStore.request (s : VecStore α) : VecOp α → Option Nat
  | .fromArray _ init => some (max 1 init.length)
  | .push v _ | .pushMut v _ | .insert v _ _ =>
    if (s v).capacity ≤ (s v).len then some (Vec.grownCapacity (s v).capacity) else none
  | .clone _ v => some (max 1 (s v).len)
  | .take _ v n => some (Vec.clamp (s v).len n)
  | .drop _ v n => some ((s v).len - Vec.clamp (s v).len n)
  | .chain _ v w => some ((s v).len + (s w).len)
  | _ => none

/-- The memory an operation asks for is refused. -/
def VecStore.refused (size : Nat) (s : VecStore α) : VecOp α × (Nat → Bool) → Prop
  | (op, heap) => ∃ n, s.request op = some n ∧ malloc heap (n * size) = false

end Vani.Backend
