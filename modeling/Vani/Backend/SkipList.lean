import Vani.Backend.Bst
import Mathlib.Algebra.Group.Int.Defs

/-!
# The emitted skip list

`intent_skiplist_i64`: an arena of nodes, node 0 the head. A node has a key, the number of its
levels, and for each of eight levels the node after it, or `-1`. Nodes that are removed are not
used again before the list is cleared. The source of random numbers is a parameter; the emitted
one is a linear congruential generator. A walk that goes through more nodes than the arena has
comes to some node twice and does not end.
-/

set_option autoImplicit false

namespace Vani.Backend

open Vani.Library

/-- Source: backend_c.rs:3370 -/
structure SkipList (ρ : Type) where
  keys : Array (Option Int64)
  forward : Array (Option Int)
  nodeLevels : Array (Option Nat)
  rngState : ρ
  numNodes : Nat
  capacity : Nat
  numKeys : Int
  tailNode : Int

namespace SkipList

variable {ρ : Type}

/-- Source: backend_c.rs:3369 -/
def maxLevel : Nat := 8

/-! ## Random levels -/

/-- Source: backend_c.rs:3371-3374 -/
def lcg (s : UInt64) : UInt64 × UInt64 :=
  let s := s * 6364136223846793005 + 1442695040888963407
  (s, s)

/-- Source: backend_c.rs:3396 -/
def seed : UInt64 := 0x9E3779B97F4A7C15

/-- The loop over the levels, with so many left. Source: backend_c.rs:3377-3380 -/
def levelLoop (next : ρ → UInt64 × ρ) : Nat → Nat → ρ → Nat × ρ
  | 0, lvl, s => (lvl, s)
  | k + 1, lvl, s =>
    let (r, s) := next s
    if r &&& 1 = 0 then (lvl, s) else levelLoop next k (lvl + 1) s

/-- Source: backend_c.rs:3375-3382 -/
def randomLevel (next : ρ → UInt64 × ρ) (s : ρ) : Nat × ρ := levelLoop next (maxLevel - 1) 1 s

/-! ## The arena -/

/-- Source: backend_c.rs:3385-3386 -/
def newCapacity (capacity needed : Nat) : Outcome Nat :=
  Outcome.loop (fun c => pure (if c < needed then .inl (c * 2) else .inr c)) 64
    (Bst.grownCapacity capacity)

/-- The three requests of a growth. Source: backend_c.rs:3387-3389 -/
def granted (heap : Nat → Bool) (capacity : Nat) : Bool :=
  malloc heap (capacity * 8) && malloc heap (capacity * maxLevel * 4) && malloc heap (capacity * 4)

/-- Source: backend_c.rs:3383-3392 -/
def ensureCap (heap : Nat → Bool) (sl : SkipList ρ) (needed : Nat) : Outcome (SkipList ρ) :=
  if needed ≤ sl.capacity then pure sl
  else do
    let capacity ← newCapacity sl.capacity needed
    if granted heap capacity then
      pure { sl with
        keys := Bst.resize sl.keys capacity
        forward := Bst.resize sl.forward (capacity * maxLevel)
        nodeLevels := Bst.resize sl.nodeLevels capacity
        capacity }
    else .aborted

/-- No node after the head. Source: backend_c.rs:3402, 3507-3509 -/
def clearHead (forward : Array (Option Int)) : Outcome (Array (Option Int)) :=
  Outcome.forRange (fun k a => Bst.store a k (-1)) maxLevel forward

/-- Source: backend_c.rs:3407-3414 -/
def dropped (s : ρ) : SkipList ρ := ⟨#[], #[], #[], s, 0, 0, 0, -1⟩

/-- Source: backend_c.rs:3393-3406 -/
def new (heap : Nat → Bool) (s : ρ) : Outcome (SkipList ρ) := do
  let sl ← (dropped s).ensureCap heap 1
  let keys ← Bst.store sl.keys 0 0
  let forward ← clearHead sl.forward
  let nodeLevels ← Bst.store sl.nodeLevels 0 maxLevel
  pure { sl with keys, forward, nodeLevels, numNodes := 1 }

/-! ## The search -/

/-- The cell of a node for a level. -/
def cell (node : Int) (lvl : Nat) : Int := node * maxLevel + lvl

/-- One turn along a level. Source: backend_c.rs:3420-3423, 3453-3456, 3474-3477 -/
def searchTurn (sl : SkipList ρ) (x : Int64) (lvl : Nat) (cur : Int) : Outcome (Int ⊕ Int) := do
  let next ← Bst.fetch sl.forward (cell cur lvl)
  if next = -1 then pure (.inr cur)
  else do
    let k ← Bst.fetch sl.keys next
    if x ≤ k then pure (.inr cur) else pure (.inl next)

/-- Along a level. Source: backend_c.rs:3419-3424, 3452-3457, 3473-3478 -/
def along (sl : SkipList ρ) (x : Int64) (lvl : Nat) (cur : Int) : Outcome Int :=
  Outcome.loop (sl.searchTurn x lvl) (sl.keys.size + 1) cur

/-- The levels below one, from the highest: the nodes before the key, the lowest level first.
Source: backend_c.rs:3418-3426, 3472-3480 -/
def updates (sl : SkipList ρ) (x : Int64) : Nat → Int → Outcome (List Int)
  | 0, _ => pure []
  | lvl + 1, cur => do
    let cur ← sl.along x lvl cur
    let lower ← sl.updates x lvl cur
    pure (lower ++ [Bst.toInt32 cur])

/-- The node before the key. Source: backend_c.rs:3451-3458 -/
def descend (sl : SkipList ρ) (x : Int64) : Nat → Int → Outcome Int
  | 0, cur => pure cur
  | lvl + 1, cur => do
    let cur ← sl.along x lvl cur
    sl.descend x lvl cur

/-- The node after another on the lowest level, if it has the key.
Source: backend_c.rs:3427-3428, 3459-3460, 3481-3482 -/
def candidate (sl : SkipList ρ) (x : Int64) (cur : Int) : Outcome (Option Int) := do
  let cand ← Bst.fetch sl.forward (cell cur 0)
  if cand = -1 then pure none
  else do
    let k ← Bst.fetch sl.keys cand
    if k = x then pure (some cand) else pure none

/-- `update[lvl]`. -/
def updateAt (update : List Int) (lvl : Nat) : Outcome Int :=
  match update[lvl]? with
  | some u => pure u
  | none => .stuck

/-- Source: backend_c.rs:3449-3461 -/
def contains (sl : SkipList ρ) (x : Int64) : Outcome Bool := do
  let cur ← sl.descend x maxLevel 0
  let cand ← sl.candidate x cur
  pure cand.isSome

/-! ## Insertion -/

/-- The node goes in on a level. Source: backend_c.rs:3434-3437 -/
def linkTurn (node : Nat) (update : List Int) (lvl : Nat) (forward : Array (Option Int)) :
    Outcome (Array (Option Int)) := do
  let u ← updateAt update lvl
  let next ← Bst.fetch forward (cell u lvl)
  let forward ← Bst.store forward (cell node lvl) next
  Bst.store forward (cell u lvl) (Bst.toInt32 node)

/-- Source: backend_c.rs:3434-3440 -/
def link (node : Nat) (update : List Int) (newLvl : Nat) (forward : Array (Option Int)) :
    Outcome (Array (Option Int)) := do
  let forward ← Outcome.forRange (linkTurn node update) newLvl forward
  Outcome.forRange (fun k a => Bst.store a (cell node (newLvl + k)) (-1)) (maxLevel - newLvl)
    forward

/-- Source: backend_c.rs:3415-3448 -/
def insert (next : ρ → UInt64 × ρ) (heap : Nat → Bool) (sl : SkipList ρ) (x : Int64) :
    Outcome (Bool × SkipList ρ) := do
  let update ← sl.updates x maxLevel 0
  let u ← updateAt update 0
  match ← sl.candidate x u with
  | some _ => pure (false, sl)
  | none =>
    let (newLvl, rngState) := randomLevel next sl.rngState
    let sl ← { sl with rngState }.ensureCap heap (sl.numNodes + 1)
    let newIdx : Nat := sl.numNodes
    let keys ← Bst.store sl.keys (newIdx : Int) x
    let nodeLevels ← Bst.store sl.nodeLevels newIdx newLvl
    let forward ← link newIdx update newLvl sl.forward
    let after ← Bst.fetch forward (cell newIdx 0)
    pure (true, { sl with
      keys, nodeLevels, forward
      tailNode := if after = -1 then (newIdx : Int) else sl.tailNode
      numNodes := sl.numNodes + 1
      numKeys := sl.numKeys + 1 })

/-! ## Removal -/

/-- The node goes out on a level. Source: backend_c.rs:3484-3489 -/
def unlinkTurn (cand : Int) (update : List Int) (lvl : Nat) (forward : Array (Option Int)) :
    Outcome (Array (Option Int)) := do
  let u ← updateAt update lvl
  let next ← Bst.fetch forward (cell u lvl)
  if next = cand then do
    let after ← Bst.fetch forward (cell cand lvl)
    Bst.store forward (cell u lvl) after
  else pure forward

/-- Source: backend_c.rs:3469-3498 -/
def remove (sl : SkipList ρ) (x : Int64) : Outcome (Bool × SkipList ρ) := do
  let update ← sl.updates x maxLevel 0
  let u ← updateAt update 0
  match ← sl.candidate x u with
  | none => pure (false, sl)
  | some cand =>
    let candLvl ← Bst.fetch sl.nodeLevels cand
    let forward ← Outcome.forRange (unlinkTurn cand update) candLvl sl.forward
    pure (true, { sl with
      forward
      tailNode := if cand = sl.tailNode then (if u = 0 then -1 else u) else sl.tailNode
      numKeys := sl.numKeys - 1 })

/-! ## The other operations -/

/-- Source: backend_c.rs:3504-3518 -/
def clear (sl : SkipList ρ) : Outcome (Int × SkipList ρ) := do
  let cleared ← if 0 < sl.capacity then do
      let forward ← clearHead sl.forward
      let nodeLevels ← Bst.store sl.nodeLevels 0 maxLevel
      pure { sl with forward, nodeLevels, numNodes := 1 }
    else pure { sl with numNodes := 0 }
  pure (sl.numKeys, { cleared with numKeys := 0, tailNode := -1 })

/-- Source: backend_c.rs:3525-3530 -/
def min (sl : SkipList ρ) : Outcome (Option Int64) := do
  let first ← Bst.fetch sl.forward 0
  if first = -1 then pure none
  else do
    let k ← Bst.fetch sl.keys first
    pure (some k)

/-- Source: backend_c.rs:3532-3536 -/
def max (sl : SkipList ρ) : Outcome (Option Int64) :=
  if sl.tailNode = -1 then pure none
  else do
    let k ← Bst.fetch sl.keys sl.tailNode
    pure (some k)

end SkipList

/-! ## Sequences of operations -/

/-- One operation on the emitted skip list, under a heap; they are those of a search tree. -/
def SkipList.step {ρ : Type} (next : ρ → UInt64 × ρ) (sl : SkipList ρ) :
    BstOp × (Nat → Bool) → Outcome (BstResult × SkipList ρ)
  | (.insert x, heap) => do
    let (r, sl) ← sl.insert next heap x
    pure (.bool r, sl)
  | (.contains x, _) => do
    let r ← sl.contains x
    pure (.bool r, sl)
  | (.remove x, _) => do
    let (r, sl) ← sl.remove x
    pure (.bool r, sl)
  | (.min, _) => do
    let k ← sl.min
    pure (.key k, sl)
  | (.max, _) => do
    let k ← sl.max
    pure (.key k, sl)
  | (.len, _) => pure (.int sl.numKeys, sl)
  | (.clear, _) => do
    let (n, sl) ← sl.clear
    pure (.int n, sl)

/-- The memory for a larger arena is refused. -/
def SkipList.refused {ρ : Type} (sl : SkipList ρ) : BstOp × (Nat → Bool) → Prop
  | (.insert _, heap) =>
    sl.capacity ≤ sl.numNodes ∧ SkipList.granted heap (Bst.grownCapacity sl.capacity) = false
  | _ => False

end Vani.Backend
