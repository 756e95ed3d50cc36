import Vani.Backend.Vec

/-!
# The emitted search tree

`intent_bst_i64`: an arena of four parallel arrays, in which a node is a slot and its
children are slots or `-1`. Slots are cells as in a vector, empty until the code writes
them. Insertion and removal keep the slots they came through on a stack of 64 entries, and
rebalance them on the way back. A search that goes through more slots than the arena has
comes to some slot twice and does not end.
-/

set_option autoImplicit false

namespace Vani.Backend

open Vani.Library

/-- Source: backend_c.rs:2092 -/
structure Bst where
  keys : Array (Option Int64)
  left : Array (Option Int)
  right : Array (Option Int)
  root : Int
  len : Int
  capacity : Nat
  heights : Array (Option Nat)
  deriving DecidableEq

namespace Bst

variable {α : Type}

/-- `a[i]`. -/
def fetch (a : Array (Option α)) (i : Int) : Outcome α :=
  if 0 ≤ i then Vec.load a i.toNat else .stuck

/-- `a[i] = x`. -/
def store (a : Array (Option α)) (i : Int) (x : α) : Outcome (Array (Option α)) :=
  if 0 ≤ i then Outcome.write a i.toNat (some x) else .stuck

/-- The conversion to an `int32_t`. -/
def toInt32 (i : Int) : Int := cInt.wrap i

/-- Source: backend_c.rs:2093-2099 -/
def new : Bst := ⟨#[], #[], #[], -1, 0, 0, #[]⟩

/-- The capacity after a growth. Source: backend_c.rs:2110 -/
def grownCapacity (capacity : Nat) : Nat := if capacity = 0 then 8 else capacity * 2

/-- The four requests of a growth. Source: backend_c.rs:2111-2115 -/
def granted (heap : Nat → Bool) (capacity : Nat) : Bool :=
  malloc heap (capacity * 8) && malloc heap (capacity * 4) && malloc heap (capacity * 4) &&
    malloc heap capacity

/-- A larger buffer with the same cells. -/
def resize (a : Array (Option α)) (n : Nat) : Array (Option α) :=
  a ++ Array.replicate (n - a.size) none

/-- Source: backend_c.rs:2109-2117 -/
def grow (heap : Nat → Bool) (b : Bst) : Outcome Bst :=
  let n := grownCapacity b.capacity
  if granted heap n then
    pure { b with
      keys := resize b.keys n
      left := resize b.left n
      right := resize b.right n
      heights := resize b.heights n
      capacity := n }
  else .aborted

/-- Source: backend_c.rs:2118-2120 -/
def height (b : Bst) (i : Int) : Outcome Nat := if i = -1 then pure 0 else fetch b.heights i

/-- Source: backend_c.rs:2121-2125 -/
def updateHeight (b : Bst) (node : Int) : Outcome Bst := do
  let l ← fetch b.left node
  let lh ← b.height l
  let r ← fetch b.right node
  let rh ← b.height r
  let heights ← store b.heights node ((1 + if rh < lh then lh else rh) % 256)
  pure { b with heights }

/-- Source: backend_c.rs:2126-2134 -/
def rotateRight (b : Bst) (x : Int) : Outcome (Int × Bst) := do
  let y ← fetch b.left x
  let yRight ← fetch b.right y
  let left ← store b.left x yRight
  let right ← store b.right y (toInt32 x)
  let b ← { b with left, right }.updateHeight x
  let b ← b.updateHeight y
  pure (y, b)

/-- Source: backend_c.rs:2135-2143 -/
def rotateLeft (b : Bst) (x : Int) : Outcome (Int × Bst) := do
  let y ← fetch b.right x
  let yLeft ← fetch b.left y
  let right ← store b.right x yLeft
  let left ← store b.left y (toInt32 x)
  let b ← { b with left, right }.updateHeight x
  let b ← b.updateHeight y
  pure (y, b)

/-- The left child, rotated where it is heavy on its right. Source: backend_c.rs:2154-2159 -/
def straightenLeft (b : Bst) (node l : Int) : Outcome Bst := do
  let llh ← b.height (← fetch b.left l)
  let lrh ← b.height (← fetch b.right l)
  if llh < lrh then do
    let (i, b) ← b.rotateLeft l
    let left ← store b.left node (toInt32 i)
    pure { b with left }
  else pure b

/-- The right child, rotated where it is heavy on its left. Source: backend_c.rs:2163-2168 -/
def straightenRight (b : Bst) (node r : Int) : Outcome Bst := do
  let rlh ← b.height (← fetch b.left r)
  let rrh ← b.height (← fetch b.right r)
  if rrh < rlh then do
    let (i, b) ← b.rotateRight r
    let right ← store b.right node (toInt32 i)
    pure { b with right }
  else pure b

/-- Source: backend_c.rs:2148-2172 -/
def rebalance (b : Bst) (node : Int) : Outcome (Int × Bst) := do
  let b ← b.updateHeight node
  let l ← fetch b.left node
  let lh ← b.height l
  let r ← fetch b.right node
  let rh ← b.height r
  if 1 < (lh : Int) - rh then do
    let b ← b.straightenLeft node l
    b.rotateRight node
  else if (lh : Int) - rh < -1 then do
    let b ← b.straightenRight node r
    b.rotateLeft node
  else pure (node, b)

/-- A slot written for a new node. Source: backend_c.rs:2175-2178 -/
def fill (b : Bst) (x : Int64) : Outcome (Int × Bst) := do
  let keys ← store b.keys b.len x
  let left ← store b.left b.len (-1)
  let right ← store b.right b.len (-1)
  let heights ← store b.heights b.len 1
  pure (b.len, { b with keys, left, right, heights, len := b.len + 1 })

/-- Source: backend_c.rs:2173-2180 -/
def emplace (heap : Nat → Bool) (b : Bst) (x : Int64) : Outcome (Int × Bst) :=
  (if b.capacity ≤ b.len then b.grow heap else pure b) >>= fun b => b.fill x

/-- The way back up: the slots come through, the last one first, and whether the way went on
to the left. -/
abbrev Path := List (Int × Bool)

/-- A new root below the last slot of the way. Source: backend_c.rs:2220-2226, 2285-2290 -/
def link (b : Bst) (path : Path) (i : Int) : Outcome Bst :=
  match path with
  | [] => pure { b with root := i }
  | (parent, true) :: _ => do
    let left ← store b.left parent (toInt32 i)
    pure { b with left }
  | (parent, false) :: _ => do
    let right ← store b.right parent (toInt32 i)
    pure { b with right }

/-- Source: backend_c.rs:2217-2227, 2294-2304 -/
def walkUp (b : Bst) : Path → Outcome Bst
  | [] => pure b
  | (node, _) :: path => do
    let (i, b) ← b.rebalance node
    let b ← b.link path i
    b.walkUp path

/-- Another slot on the stack. Source: backend_c.rs:2189-2207, 2246-2277 -/
def push (path : Path) (node : Int) (left : Bool) : Outcome Path :=
  if path.length < 64 then pure ((node, left) :: path) else .stuck

/-- One turn of the search of an insertion: on from a child, or the tree with the new node.
Source: backend_c.rs:2193-2214 -/
def insertTurn (heap : Nat → Bool) (b : Bst) (x : Int64) (s : Int × Path) :
    Outcome ((Int × Path) ⊕ Option (Path × Bst)) := do
  let k ← fetch b.keys s.1
  if x = k then pure (.inr none)
  else if x < k then do
    let path ← push s.2 s.1 true
    let child ← fetch b.left s.1
    if child = -1 then do
      let (i, b) ← b.emplace heap x
      let left ← store b.left s.1 (toInt32 i)
      pure (.inr (some (path, { b with left })))
    else pure (.inl (child, path))
  else do
    let path ← push s.2 s.1 false
    let child ← fetch b.right s.1
    if child = -1 then do
      let (i, b) ← b.emplace heap x
      let right ← store b.right s.1 (toInt32 i)
      pure (.inr (some (path, { b with right })))
    else pure (.inl (child, path))

/-- Source: backend_c.rs:2181-2229 -/
def insert (heap : Nat → Bool) (b : Bst) (x : Int64) : Outcome (Bool × Bst) :=
  if b.root = -1 then do
    let (i, b) ← b.emplace heap x
    pure (true, { b with root := i })
  else do
    match ← Outcome.loop (b.insertTurn heap x) (b.keys.size + 1) (b.root, []) with
    | none => pure (false, b)
    | some (path, b) =>
      let b ← b.walkUp path
      pure (true, b)

/-- One turn of a search. Source: backend_c.rs:2232-2236 -/
def searchTurn (b : Bst) (x : Int64) (cur : Int) : Outcome (Int ⊕ Bool) :=
  if cur = -1 then pure (.inr false)
  else do
    let k ← fetch b.keys cur
    if x = k then pure (.inr true)
    else if x < k then do
      let child ← fetch b.left cur
      pure (.inl child)
    else do
      let child ← fetch b.right cur
      pure (.inl child)

/-- Source: backend_c.rs:2230-2238 -/
def contains (b : Bst) (x : Int64) : Outcome Bool :=
  Outcome.loop (b.searchTurn x) (b.keys.size + 1) b.root

/-- One turn of the search of a removal. Source: backend_c.rs:2251-2258 -/
def findTurn (b : Bst) (x : Int64) (s : Int × Path) :
    Outcome ((Int × Path) ⊕ Option (Int × Path)) :=
  if s.1 = -1 then pure (.inr none)
  else do
    let k ← fetch b.keys s.1
    if x = k then pure (.inr (some s))
    else if x < k then do
      let path ← push s.2 s.1 true
      let child ← fetch b.left s.1
      pure (.inl (child, path))
    else do
      let path ← push s.2 s.1 false
      let child ← fetch b.right s.1
      pure (.inl (child, path))

/-- One turn of the search for the successor. Source: backend_c.rs:2273-2278 -/
def successorTurn (b : Bst) (s : Int × Path) : Outcome ((Int × Path) ⊕ (Int × Path)) := do
  let child ← fetch b.left s.1
  if child = -1 then pure (.inr s)
  else do
    let path ← push s.2 s.1 true
    pure (.inl (child, path))

/-- What takes the place of a found node, and the way to it.
Source: backend_c.rs:2261-2283 -/
def unlink (b : Bst) (cur : Int) (path : Path) : Outcome (Int × Path × Bst) := do
  let foundL ← fetch b.left cur
  let foundR ← fetch b.right cur
  if foundL ≠ -1 ∧ foundR ≠ -1 then do
    let path ← push path cur false
    let (s, path) ← Outcome.loop b.successorTurn (b.keys.size + 1) (foundR, path)
    let keys ← store b.keys cur (← fetch b.keys s)
    let replacement ← fetch b.right s
    pure (replacement, path, { b with keys })
  else pure (if foundL ≠ -1 then foundL else foundR, path, b)

/-- Source: backend_c.rs:2244-2306 -/
def remove (b : Bst) (x : Int64) : Outcome (Bool × Bst) :=
  if b.root = -1 then pure (false, b)
  else do
    match ← Outcome.loop (b.findTurn x) (b.keys.size + 1) (b.root, []) with
    | none => pure (false, b)
    | some (cur, path) =>
      let (replacement, path, b) ← b.unlink cur path
      let b ← b.link path replacement
      let b ← { b with len := b.len - 1 }.walkUp path
      pure (true, b)

/-- Source: backend_c.rs:2310-2325 -/
def clear (b : Bst) : Int × Bst := (b.len, new)

/-- One turn of the walk to an end of the tree. Source: backend_c.rs:2335, 2342 -/
def endTurn (children : Array (Option Int)) (cur : Int) : Outcome (Int ⊕ Int) := do
  let child ← fetch children cur
  if child = -1 then pure (.inr cur) else pure (.inl child)

/-- The key at an end of the tree. -/
def endKey (children : Array (Option Int)) (b : Bst) : Outcome (Option Int64) :=
  if b.root = -1 then pure none
  else do
    let cur ← Outcome.loop (endTurn children) (b.keys.size + 1) b.root
    let k ← fetch b.keys cur
    pure (some k)

/-- Source: backend_c.rs:2331-2337 -/
def min (b : Bst) : Outcome (Option Int64) := endKey b.left b

/-- Source: backend_c.rs:2338-2344 -/
def max (b : Bst) : Outcome (Option Int64) := endKey b.right b

end Bst

/-! ## Sequences of operations -/

/-- The operations of a search tree. -/
inductive BstOp
  | insert (x : Int64)
  | contains (x : Int64)
  | remove (x : Int64)
  | min
  | max
  | len
  | clear

/-- What an operation returns. -/
inductive BstResult
  | bool (b : Bool)
  | int (n : Int)
  | key (k : Option Int64)
  deriving DecidableEq

/-- One operation on the emitted tree, under a heap. -/
def Bst.step (b : Bst) : BstOp × (Nat → Bool) → Outcome (BstResult × Bst)
  | (.insert x, heap) => do
    let (r, b) ← b.insert heap x
    pure (.bool r, b)
  | (.contains x, _) => do
    let r ← b.contains x
    pure (.bool r, b)
  | (.remove x, _) => do
    let (r, b) ← b.remove x
    pure (.bool r, b)
  | (.min, _) => do
    let k ← b.min
    pure (.key k, b)
  | (.max, _) => do
    let k ← b.max
    pure (.key k, b)
  | (.len, _) => pure (.int b.len, b)
  | (.clear, _) =>
    let (n, b) := b.clear
    pure (.int n, b)

/-- An insertion needs a larger arena, and the memory for it is refused. -/
def Bst.refused (b : Bst) : BstOp × (Nat → Bool) → Prop
  | (.insert _, heap) =>
    b.capacity ≤ b.len ∧ Bst.granted heap (Bst.grownCapacity b.capacity) = false
  | _ => False

end Vani.Backend
