import Vani.Library.Outcome
import Mathlib.Algebra.Group.Int.Defs

/-!
# The emitted graphs

`intent_graph`: the edges in three parallel arrays, and two caches of them, one that has the
edges in the order of their sources and one in the order of their targets. A cache is built
when a query first needs it and dropped by every call that changes the edges. Node numbers are
kept as `int32_t`, and so are the offsets in the caches; their overflow is undefined.
-/

set_option autoImplicit false

namespace Vani.Backend

open Vani.Library

/-- A cache: for each node where its edges begin, and of each edge the other end and the
weight. `adj_start`, `adj_csr_dst` and `adj_csr_weight`, or their counterparts for the targets.
Source: backend_c.rs:2595 -/
structure Csr where
  start : Array Int
  other : Array Int32
  weight : Array Int64

/-- A cache is `none` where its first array is `NULL`. Source: backend_c.rs:2595 -/
structure Graph where
  numNodes : Nat
  edgeSrc : Array Int32
  edgeDst : Array Int32
  edgeWeight : Array Int64
  numEdges : Nat
  edgeCapacity : Nat
  adj : Option Csr
  revAdj : Option Csr

namespace Graph

/-- A value of an `int32_t` expression. -/
def int32 (x : Int) : Outcome Int := if -2 ^ 31 ≤ x ∧ x < 2 ^ 31 then pure x else .stuck

/-- A position in an array. -/
def index (x : Int) : Outcome Nat := if 0 ≤ x then pure x.toNat else .stuck

/-- Source: backend_c.rs:2596-2604 -/
def new (n : Int64) : Graph := ⟨n.toInt.toNat, #[], #[], #[], 0, 0, none, none⟩

/-- Source: backend_c.rs:2608-2617 -/
def invalidateCsr (g : Graph) : Graph := { g with adj := none, revAdj := none }

/-- An array for `n` elements of `width` bytes; the bytes asked for wrap. -/
def allocate {α : Type} (heap : Nat → Bool) (n width : Nat) (x : α) : Outcome (Array α) :=
  if malloc heap (n * width % 2 ^ 64) then
    pure (Array.replicate (n * width % 2 ^ 64 / width) x)
  else .aborted

/-- Without edges the array is `NULL`. Source: backend_c.rs:2641-2645, 2682-2686 -/
def allocateRows {α : Type} (heap : Nat → Bool) (total : Int) (width : Nat) (x : α) :
    Outcome (Array α) :=
  if 0 < total then allocate heap total.toNat width x else pure #[]

/-- `nn + 1`, an `int64_t`. -/
def nodesPlusOne (nn : Nat) : Outcome Nat := if nn + 1 < 2 ^ 63 then pure (nn + 1) else .stuck

/-- The number is a node's. -/
def IsNode (nn : Nat) (s : Int32) : Prop := 0 ≤ s.toInt ∧ s.toInt < nn

instance (nn : Nat) (s : Int32) : Decidable (IsNode nn s) :=
  inferInstanceAs (Decidable (_ ∧ _))

/-- `adj_start[s + 1]++` for the edge `e`. Source: backend_c.rs:2634-2637, 2676-2679 -/
def countEdge (nn : Nat) (keys : Array Int32) (e : Nat) (start : Array Int) :
    Outcome (Array Int) := do
  let s ← Outcome.read keys e
  if IsNode nn s then
    let i ← index (← int32 (s.toInt + 1))
    Outcome.write start i (← int32 ((← Outcome.read start i) + 1))
  else pure start

/-- `adj_start[i] += adj_start[i - 1]`, where `i` is `j + 1`.
Source: backend_c.rs:2639, 2680 -/
def addPrevious (j : Nat) (start : Array Int) : Outcome (Array Int) := do
  let x ← Outcome.read start (j + 1)
  let y ← Outcome.read start j
  Outcome.write start (j + 1) (← int32 (x + y))

/-- The edge `e` goes to the cursor of its key.
Source: backend_c.rs:2650-2656, 2690-2696 -/
def scatterEdge (nn : Nat) (keys others : Array Int32) (weights : Array Int64) (e : Nat) :
    Array Int × Array Int32 × Array Int64 → Outcome (Array Int × Array Int32 × Array Int64)
  | (cur, other, weight) => do
    let s ← Outcome.read keys e
    if IsNode nn s then
      let pos ← Outcome.read cur s.toInt.toNat
      let cur ← Outcome.write cur s.toInt.toNat (← int32 (pos + 1))
      let other ← Outcome.write other (← index pos) (← Outcome.read others e)
      let weight ← Outcome.write weight (← index pos) (← Outcome.read weights e)
      pure (cur, other, weight)
    else pure (cur, other, weight)

/-- A cache of the edges by the given keys. Source: backend_c.rs:2628-2658, 2670-2698 -/
def buildCsr (heap : Nat → Bool) (nn ne : Nat) (keys others : Array Int32)
    (weights : Array Int64) : Outcome Csr := do
  let size ← nodesPlusOne nn
  let start ← allocate heap size 4 0
  let start ← Outcome.forRange (fun i a => Outcome.write a i 0) size start
  let start ← Outcome.forRange (countEdge nn keys) ne start
  let start ← Outcome.forRange addPrevious nn start
  let total ← Outcome.read start nn
  let other ← allocateRows heap total 4 0
  let weight ← allocateRows heap total 8 0
  let cur ← allocate heap nn 4 0
  let cur ← Outcome.forRange (fun i a => do Outcome.write a i (← Outcome.read start i)) nn cur
  let (_, other, weight) ← Outcome.forRange (scatterEdge nn keys others weights) ne
    (cur, other, weight)
  pure ⟨start, other, weight⟩

/-- Source: backend_c.rs:2624-2658 -/
def buildCsrIfNeeded (g : Graph) (heap : Nat → Bool) : Outcome Graph :=
  if g.adj.isSome || g.numNodes == 0 then pure g
  else do
    let c ← buildCsr heap g.numNodes g.numEdges g.edgeSrc g.edgeDst g.edgeWeight
    pure { g with adj := some c }

/-- Source: backend_c.rs:2666-2698 -/
def buildRevCsrIfNeeded (g : Graph) (heap : Nat → Bool) : Outcome Graph :=
  if g.revAdj.isSome || g.numNodes == 0 then pure g
  else do
    let c ← buildCsr heap g.numNodes g.numEdges g.edgeDst g.edgeSrc g.edgeWeight
    pure { g with revAdj := some c }

/-- `realloc`: the elements that were there stay. -/
def grow {α : Type} (a : Array α) (capacity : Nat) (x : α) : Array α :=
  Array.ofFn fun i : Fin capacity => a.getD i x

/-- The capacity after a growth. Source: backend_c.rs:2710 -/
def grownCapacity (capacity : Nat) : Nat := if capacity = 0 then 8 else capacity * 2

/-- Room for one more edge. Source: backend_c.rs:2709-2715 -/
def reserve (g : Graph) (heap : Nat → Bool) : Outcome Graph :=
  if g.edgeCapacity ≤ g.numEdges then
    let capacity := grownCapacity g.edgeCapacity
    if malloc heap (capacity * 4) && malloc heap (capacity * 8) then
      pure { g with
        edgeSrc := grow g.edgeSrc capacity 0
        edgeDst := grow g.edgeDst capacity 0
        edgeWeight := grow g.edgeWeight capacity 0
        edgeCapacity := capacity }
    else .aborted
  else pure g

/-- Source: backend_c.rs:2707-2721 -/
def addEdge (g : Graph) (heap : Nat → Bool) (src dst w : Int64) : Outcome (Nat × Graph) := do
  let g ← g.invalidateCsr.reserve heap
  let edgeSrc ← Outcome.write g.edgeSrc g.numEdges src.toInt32
  let edgeDst ← Outcome.write g.edgeDst g.numEdges dst.toInt32
  let edgeWeight ← Outcome.write g.edgeWeight g.numEdges w
  pure (g.numEdges + 1, { g with edgeSrc, edgeDst, edgeWeight, numEdges := g.numEdges + 1 })

/-- Source: backend_c.rs:2733-2745 -/
def clear (g : Graph) : Nat × Graph :=
  (g.numEdges, invalidateCsr
    { g with edgeSrc := #[], edgeDst := #[], edgeWeight := #[], numEdges := 0, edgeCapacity := 0 })

/-- The algorithms, with their arguments; of the heuristic of `astar`, its length.
Source: backend_c.rs:2750-3063 -/
inductive Query
  | bfsReach (start : Int64)
  | dfsReach (start : Int64)
  | hasCycle
  | topoSort
  | dijkstra (src dst : Int64)
  | mstKruskal
  | mstPrim
  | astar (src dst : Int64) (len : UInt64)

/-- What a call reads of the caches. -/
inductive Reads
  | nothing
  | forward (adj : Csr)
  | both (adj rev : Csr)

/-- The argument is not a node. -/
def outside (g : Graph) (x : Int64) : Bool := decide (x.toInt < 0) || decide (g.numNodes ≤ x.toInt)

/-- A call that reads the forward cache from now on. -/
def onForward (g : Graph) (heap : Nat → Bool) : Outcome (Reads × Graph) := do
  let g ← g.buildCsrIfNeeded heap
  match g.adj with
  | some c => pure (.forward c, g)
  | none => .stuck

/-- A call that reads both caches from now on. -/
def onBoth (g : Graph) (heap : Nat → Bool) : Outcome (Reads × Graph) := do
  let g ← g.buildCsrIfNeeded heap
  let g ← g.buildRevCsrIfNeeded heap
  match g.adj, g.revAdj with
  | some c, some r => pure (.both c r, g)
  | _, _ => .stuck

/-- An algorithm up to its first read of a cache. What follows changes nothing of the graph.
Source: backend_c.rs:2751-2752, 2773-2774, 2797-2798, 2843-2844, 2892-2896, 2932-2951,
2982-2987, 3042-3049 -/
def query (g : Graph) (heap : Nat → Bool) : Query → Outcome (Reads × Graph)
  | .bfsReach start | .dfsReach start =>
    if g.numNodes == 0 || g.outside start then pure (.nothing, g) else g.onForward heap
  | .hasCycle | .topoSort => if g.numNodes == 0 then pure (.nothing, g) else g.onForward heap
  | .dijkstra src dst =>
    if g.numNodes == 0 || g.outside src || g.outside dst then pure (.nothing, g)
    else if src = dst then pure (.nothing, g)
    else g.onForward heap
  | .mstKruskal => pure (.nothing, g)
  | .mstPrim => if g.numNodes == 0 then pure (.nothing, g) else g.onBoth heap
  | .astar src dst len =>
    if g.numNodes == 0 || g.outside src || g.outside dst then pure (.nothing, g)
    else if len.toNat ≠ g.numNodes then pure (.nothing, g)
    else if src = dst then pure (.nothing, g)
    else g.onForward heap

/-- The call reads the forward cache, unless it returns before. -/
def Query.readsForward : Query → Bool
  | .mstKruskal => false
  | _ => true

/-- The call reads the reverse cache, unless it returns before. -/
def Query.readsReverse : Query → Bool
  | .mstPrim => true
  | _ => false

/-- A cache's memory is refused: its offsets, its edges if it has any, or the cursors. -/
def cacheRefused (heap : Nat → Bool) (nn ne : Nat) (keys : Array Int32) : Prop :=
  let total := ((keys.toList.take ne).filter fun s => IsNode nn s).length
  malloc heap ((nn + 1) * 4) = false ∨ malloc heap (nn * 4) = false ∨
    0 < total ∧ (malloc heap (total * 4) = false ∨ malloc heap (total * 8) = false)

end Graph

/-- A call on a graph. -/
inductive GraphOp
  | new (n : Int64)
  | addEdge (src dst w : Int64)
  | clear
  | numNodes
  | numEdges
  | query (q : Graph.Query)

/-- What a call gives back, or reads. -/
inductive GraphAnswer
  | unit
  | count (n : Nat)
  | ran (r : Graph.Reads)

/-- One call, under a heap. Source: backend_c.rs:2596-2745 -/
def Graph.step (g : Graph) : GraphOp × (Nat → Bool) → Outcome (GraphAnswer × Graph)
  | (.new n, _) => pure (.unit, Graph.new n)
  | (.addEdge src dst w, heap) => do
    let (n, g) ← g.addEdge heap src dst w
    pure (.count n, g)
  | (.clear, _) => pure (.count g.clear.1, g.clear.2)
  | (.numNodes, _) => pure (.count g.numNodes, g)
  | (.numEdges, _) => pure (.count g.numEdges, g)
  | (.query q, heap) => do
    let (r, g) ← g.query heap q
    pure (.ran r, g)

/-- The memory a call asks for is refused. -/
def Graph.refused (g : Graph) : GraphOp × (Nat → Bool) → Prop
  | (.addEdge _ _ _, heap) =>
    g.edgeCapacity ≤ g.numEdges ∧ (malloc heap (Graph.grownCapacity g.edgeCapacity * 4) &&
      malloc heap (Graph.grownCapacity g.edgeCapacity * 8)) = false
  | (.query q, heap) =>
    q.readsForward = true ∧ Graph.cacheRefused heap g.numNodes g.numEdges g.edgeSrc ∨
      q.readsReverse = true ∧ Graph.cacheRefused heap g.numNodes g.numEdges g.edgeDst
  | _ => False

end Vani.Backend
