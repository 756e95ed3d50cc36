import Vani.Backend.Bst
import Vani.Library.CText

/-!
# The emitted prefix tree

`intent_trie`: an arena of nodes, each a row of 256 children and a mark for the end of a word.
A child is a node or `-1`, stored in an `int32_t`. Nodes that a removal frees are chained
through the first cells of their rows and are used again before the arena is extended.
-/

set_option autoImplicit false

namespace Vani.Backend

open Vani.Library

/-- Source: backend_c.rs:3145 -/
structure Trie where
  children : Array (Option Int)
  isEnd : Array (Option Bool)
  numNodes : Nat
  capacity : Nat
  numWords : Int
  freeHead : Int
  freeCount : Int

namespace Trie

/-! ## Nodes -/

/-- The two requests of a growth. Source: backend_c.rs:3170-3171 -/
def granted (heap : Nat → Bool) (capacity : Nat) : Bool :=
  malloc heap (capacity * 256 * 4) && malloc heap capacity

/-- Source: backend_c.rs:3168-3173 -/
def grow (heap : Nat → Bool) (t : Trie) : Outcome Trie :=
  let n := Bst.grownCapacity t.capacity
  if granted heap n then
    pure { t with
      children := Bst.resize t.children (n * 256)
      isEnd := Bst.resize t.isEnd n
      capacity := n }
  else .aborted

/-- A row without children, and no word that ends there. Source: backend_c.rs:3164-3165,
3175-3176, 3293-3294 -/
def clearNode (t : Trie) (idx : Int) : Outcome Trie := do
  let children ← Outcome.forRange (fun c a => Bst.store a (idx * 256 + c) (-1)) 256 t.children
  let isEnd ← Bst.store t.isEnd idx false
  pure { t with children, isEnd }

/-- Source: backend_c.rs:3159-3179 -/
def newNode (heap : Nat → Bool) (t : Trie) : Outcome (Int × Trie) :=
  if t.freeHead ≠ -1 then do
    let idx := t.freeHead
    let freeHead ← Bst.fetch t.children (idx * 256 + 0)
    let t ← { t with freeHead, freeCount := t.freeCount - 1 }.clearNode idx
    pure (idx, t)
  else do
    let t ← if t.capacity ≤ t.numNodes then t.grow heap else pure t
    let idx : Int := t.numNodes
    let t ← t.clearNode idx
    pure (idx, { t with numNodes := t.numNodes + 1 })

/-- Source: backend_c.rs:3188-3194 -/
def dropped : Trie := ⟨#[], #[], 0, 0, 0, -1, 0⟩

/-- Source: backend_c.rs:3180-3187 -/
def new (heap : Nat → Bool) : Outcome Trie := do
  let (_, t) ← dropped.newNode heap
  pure t

/-! ## Words -/

/-- One byte of an insertion. Source: backend_c.rs:3203-3211 -/
def insertTurn (heap : Nat → Bool) (c : UInt8) (s : Int × Trie) : Outcome (Int × Trie) := do
  let next ← Bst.fetch s.2.children (s.1 * 256 + c.toNat)
  if next = -1 then do
    let (nx, t) ← s.2.newNode heap
    let children ← Bst.store t.children (s.1 * 256 + c.toNat) (Bst.toInt32 nx)
    pure (nx, { t with children })
  else pure (next, s.2)

/-- Source: backend_c.rs:3202-3212 -/
def insertLoop (heap : Nat → Bool) : List UInt8 → Int × Trie → Outcome (Int × Trie)
  | [], s => pure s
  | c :: w, s => do
    let s ← insertTurn heap c s
    insertLoop heap w s

/-- The end of an insertion. Source: backend_c.rs:3198-3199, 3213-3214 -/
def markEnd (t : Trie) (cur : Int) : Outcome (Bool × Trie) := do
  if ← Bst.fetch t.isEnd cur then pure (false, t)
  else do
    let isEnd ← Bst.store t.isEnd cur true
    pure (true, { t with isEnd, numWords := t.numWords + 1 })

/-- Source: backend_c.rs:3195-3215 -/
def insert (heap : Nat → Bool) (t : Trie) (s : List UInt8) : Outcome (Bool × Trie) :=
  if s = [] then t.markEnd 0
  else do
    let (cur, t) ← insertLoop heap s (0, t)
    t.markEnd cur

/-- Source: backend_c.rs:3216-3229 -/
def walk (t : Trie) : List UInt8 → Int → Outcome Int
  | [], cur => pure cur
  | c :: s, cur => do
    let next ← Bst.fetch t.children (cur * 256 + c.toNat)
    if next = -1 then pure (-1) else t.walk s next

/-- Source: backend_c.rs:3230-3234 -/
def contains (t : Trie) (s : List UInt8) : Outcome Bool := do
  let cur ← t.walk s 0
  if cur = -1 then pure false else Bst.fetch t.isEnd cur

/-- Source: backend_c.rs:3235-3238 -/
def startsWith (t : Trie) (s : List UInt8) : Outcome Bool := do
  let cur ← t.walk s 0
  pure (cur ≠ -1)

/-! ## Removal -/

/-- The nodes on the way and the bytes between them. -/
structure Way where
  node : Array (Option Int)
  ch : Array (Option Nat)

/-- The two requests of a removal. Source: backend_c.rs:3249-3251 -/
def wayGranted (heap : Nat → Bool) (n : Nat) : Bool :=
  malloc heap ((n + 1) * 8 % 2 ^ 64) && malloc heap ((if 0 < n then n else 1) * 4 % 2 ^ 64)

/-- Source: backend_c.rs:3249-3250 -/
def newWay (n : Nat) : Way where
  node := Array.replicate ((n + 1) * 8 % 2 ^ 64 / 8) none
  ch := Array.replicate ((if 0 < n then n else 1) * 4 % 2 ^ 64 / 4) none

/-- The way down along a word, from its `i`-th byte on. Source: backend_c.rs:3255-3262 -/
def descend (t : Trie) : List UInt8 → Nat → Int → Way → Outcome (Option (Int × Way))
  | [], _, cur, way => pure (some (cur, way))
  | c :: s, i, cur, way => do
    let next ← Bst.fetch t.children (cur * 256 + c.toNat)
    if next = -1 then pure none
    else do
      let ch ← Outcome.write way.ch i (some c.toNat)
      let node ← Outcome.write way.node (i + 1) (some next)
      t.descend s (i + 1) next ⟨node, ch⟩

/-- The scan of the last cells of a row for a child. Source: backend_c.rs:3271-3274 -/
def hasChild (t : Trie) (node : Int) : Nat → Outcome Bool
  | 0 => pure false
  | k + 1 => do
    let child ← Bst.fetch t.children (node * 256 + (256 - (k + 1) : Nat))
    if child ≠ -1 then pure true else t.hasChild node k

/-- Source: backend_c.rs:3277-3280 -/
def unlink (t : Trie) (node parent : Int) (ch : Nat) : Outcome Trie := do
  let children ← Bst.store t.children (parent * 256 + ch) (-1)
  let children ← Bst.store children (node * 256 + 0) (Bst.toInt32 t.freeHead)
  pure { t with children, freeHead := node, freeCount := t.freeCount + 1 }

/-- The way back up. Source: backend_c.rs:3267-3281 -/
def climb (way : Way) : Nat → Trie → Outcome Trie
  | 0, t => pure t
  | step + 1, t => do
    let node ← Vec.load way.node (step + 1)
    if node = 0 then pure t
    else if ← Bst.fetch t.isEnd node then pure t
    else if ← t.hasChild node 256 then pure t
    else do
      let parent ← Vec.load way.node step
      let ch ← Vec.load way.ch step
      let t ← t.unlink node parent ch
      climb way step t

/-- Source: backend_c.rs:3245-3284 -/
def delete (heap : Nat → Bool) (t : Trie) (s : List UInt8) : Outcome (Bool × Trie) :=
  if wayGranted heap s.length then do
    let node ← Outcome.write (newWay s.length).node 0 (some 0)
    match ← t.descend s 0 0 { newWay s.length with node } with
    | none => pure (false, t)
    | some (cur, way) =>
      if ← Bst.fetch t.isEnd cur then do
        let isEnd ← Bst.store t.isEnd cur false
        let t ← climb way s.length { t with isEnd, numWords := t.numWords - 1 }
        pure (true, t)
      else pure (false, t)
  else .aborted

/-! ## The arena -/

/-- Source: backend_c.rs:3290-3303 -/
def clear (t : Trie) : Outcome (Int × Trie) := do
  let cleared ← if 0 < t.capacity then do
      let t ← t.clearNode 0
      pure { t with numNodes := 1 }
    else pure { t with numNodes := 0 }
  pure (t.numWords, { cleared with numWords := 0, freeHead := -1, freeCount := 0 })

/-- Source: backend_c.rs:3307-3309 -/
def nodeCount (t : Trie) : Int := t.numNodes - t.freeCount

end Trie

/-! ## Sequences of operations -/

/-- The operations of a prefix tree. -/
inductive TrieOp
  | insert (s : CText)
  | contains (s : CText)
  | startsWith (s : CText)
  | delete (s : CText)
  | len
  | nodeCount
  | clear

/-- What an operation returns. -/
inductive TrieResult
  | bool (b : Bool)
  | int (n : Int)
  deriving DecidableEq

/-- One operation on the emitted tree, under a heap. -/
def Trie.step (t : Trie) : TrieOp × (Nat → Bool) → Outcome (TrieResult × Trie)
  | (.insert s, heap) => do
    let (r, t) ← t.insert heap s.bytes
    pure (.bool r, t)
  | (.contains s, _) => do
    let r ← t.contains s.bytes
    pure (.bool r, t)
  | (.startsWith s, _) => do
    let r ← t.startsWith s.bytes
    pure (.bool r, t)
  | (.delete s, heap) => do
    let (r, t) ← t.delete heap s.bytes
    pure (.bool r, t)
  | (.len, _) => pure (.int t.numWords, t)
  | (.nodeCount, _) => pure (.int t.nodeCount, t)
  | (.clear, _) => do
    let (n, t) ← t.clear
    pure (.int n, t)

/-- The memory for a larger arena, or for the way of a removal, is refused. -/
def Trie.refused (t : Trie) : TrieOp × (Nat → Bool) → Prop
  | (.insert _, heap) => ∃ n, t.capacity < n ∧ Trie.granted heap n = false
  | (.delete s, heap) => Trie.wayGranted heap s.bytes.length = false
  | _ => False

end Vani.Backend
