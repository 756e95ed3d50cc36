import Vani.Backend.Graph
import Vani.Backend.Vec

/-!
# The emitted graph algorithms

The two searches, Kahn's algorithm with and without its order, Dijkstra's and A* for distances,
Kruskal's and Prim's for spanning trees. Each builds the caches it reads, allocates its own
arrays and gives them back. Node numbers in these arrays are `int64_t`; numbers that a cache
holds are checked before they index an array. Overflow of `int64_t` is undefined.
-/

set_option autoImplicit false

namespace Vani.Backend.Graph

open Vani.Library

/-- A value of an `int64_t` expression. -/
def int64 (x : Int) : Outcome Int := if -2 ^ 63 ≤ x ∧ x < 2 ^ 63 then pure x else .stuck

/-- `0x7fffffffffffffffLL` -/
def infinity : Int := 2 ^ 63 - 1

/-- `calloc`: the bytes asked for do not wrap. -/
def allocateZeroed {α : Type} (heap : Nat → Bool) (n width : Nat) (zero : α) :
    Outcome (Array α) :=
  if malloc heap (n * width) then pure (Array.replicate n zero) else .aborted

/-- The forward cache. -/
def forward (g : Graph) (heap : Nat → Bool) : Outcome (Csr × Graph) := do
  let g ← g.buildCsrIfNeeded heap
  match g.adj with
  | some c => pure (c, g)
  | none => .stuck

/-- The reverse cache. -/
def backward (g : Graph) (heap : Nat → Bool) : Outcome (Csr × Graph) := do
  let g ← g.buildRevCsrIfNeeded heap
  match g.revAdj with
  | some c => pure (c, g)
  | none => .stuck

/-- `for (int32_t k = adj_start[u]; k < adj_start[u + 1]; k++)`, where the body is for the
neighbours that are nodes. -/
def forNeighbours {σ : Type} (nn : Nat) (c : Csr) (u : Nat) (body : Nat → Nat → σ → Outcome σ)
    (s : σ) : Outcome σ := do
  let k₀ ← Outcome.read c.start u
  let k₁ ← Outcome.read c.start (u + 1)
  Outcome.forRange
    (fun i s => do
      let k ← index (k₀ + i)
      let v ← Outcome.read c.other k
      if IsNode nn v then body k v.toInt.toNat s else pure s)
    (k₁ - k₀).toNat s

/-! ## Searches -/

/-- `visited`, the queue or the stack, where its next element goes, and `count`. -/
structure Search where
  visited : Array Bool
  work : Array Nat
  top : Nat
  count : Nat

/-- Source: backend_c.rs:2753-2757, 2775-2779 -/
def Search.begin (heap : Nat → Bool) (nn start : Nat) : Outcome Search := do
  let visited ← allocateZeroed heap nn 1 false
  let work ← allocate heap nn 8 0
  let work ← Outcome.write work 0 start
  let visited ← Outcome.write visited start true
  pure ⟨visited, work, 1, 1⟩

/-- `if (!visited[v]) { visited[v] = 1; queue[qt++] = v; count++; }`
Source: backend_c.rs:2765, 2787 -/
def Search.visit (v : Nat) (s : Search) : Outcome Search := do
  if ← Outcome.read s.visited v then pure s
  else do
    let visited ← Outcome.write s.visited v true
    let work ← Outcome.write s.work s.top v
    pure ⟨visited, work, s.top + 1, s.count + 1⟩

/-- Source: backend_c.rs:2758-2767 -/
def bfsTurn (nn : Nat) (c : Csr) : Search × Nat → Outcome ((Search × Nat) ⊕ Nat)
  | (s, qh) =>
    if qh < s.top then do
      let u ← Outcome.read s.work qh
      let s ← forNeighbours nn c u (fun _ v => Search.visit v) s
      pure (.inl (s, qh + 1))
    else pure (.inr s.count)

/-- Source: backend_c.rs:2780-2789 -/
def dfsTurn (nn : Nat) (c : Csr) (s : Search) : Outcome (Search ⊕ Nat) :=
  if 0 < s.top then do
    let u ← Outcome.read s.work (s.top - 1)
    let s ← forNeighbours nn c u (fun _ v => Search.visit v) { s with top := s.top - 1 }
    pure (.inl s)
  else pure (.inr s.count)

/-- Source: backend_c.rs:2750-2770 -/
def bfsReach (g : Graph) (heap : Nat → Bool) (start : Int64) : Outcome (Nat × Graph) :=
  if g.numNodes == 0 || g.outside start then pure (0, g)
  else do
    let (c, g) ← g.forward heap
    let s ← Search.begin heap g.numNodes start.toInt.toNat
    let count ← Outcome.loop (bfsTurn g.numNodes c) (g.numNodes + 1) (s, 0)
    pure (count, g)

/-- Source: backend_c.rs:2772-2792 -/
def dfsReach (g : Graph) (heap : Nat → Bool) (start : Int64) : Outcome (Nat × Graph) :=
  if g.numNodes == 0 || g.outside start then pure (0, g)
  else do
    let (c, g) ← g.forward heap
    let s ← Search.begin heap g.numNodes start.toInt.toNat
    let count ← Outcome.loop (dfsTurn g.numNodes c) (g.numNodes + 1) s
    pure (count, g)

/-! ## Kahn's algorithm -/

/-- `in_deg`, the queue, its head and its end, and `processed`. -/
structure Kahn where
  inDeg : Array Int
  queue : Array Nat
  qh : Nat
  qt : Nat
  processed : Nat

/-- `in_deg[d]++`, for every cell of the cache. Source: backend_c.rs:2803-2810, 2848-2855 -/
def inDegrees (nn : Nat) (c : Csr) (inDeg : Array Int) : Outcome (Array Int) :=
  Outcome.forRange
    (fun s => forNeighbours nn c s fun _ d a => do
      Outcome.write a d (← int64 ((← Outcome.read a d) + 1)))
    nn inDeg

/-- Source: backend_c.rs:2811-2814, 2856-2859 -/
def enqueueSources (nn : Nat) (inDeg : Array Int) (queue : Array Nat) :
    Outcome (Array Nat × Nat) :=
  Outcome.forRange
    (fun i (q : Array Nat × Nat) => do
      if (← Outcome.read inDeg i) = 0 then
        let queue ← Outcome.write q.1 q.2 i
        pure (queue, q.2 + 1)
      else pure q)
    nn (queue, 0)

/-- Source: backend_c.rs:2799-2814, 2845-2859 -/
def Kahn.begin (heap : Nat → Bool) (nn : Nat) (c : Csr) : Outcome Kahn := do
  let inDeg ← allocateZeroed heap nn 8 0
  let queue ← allocate heap nn 8 0
  let inDeg ← inDegrees nn c inDeg
  let (queue, qt) ← enqueueSources nn inDeg queue
  pure ⟨inDeg, queue, 0, qt, 0⟩

/-- `in_deg[v]--; if (in_deg[v] == 0) queue[qt++] = v;`
Source: backend_c.rs:2824-2825, 2879-2880 -/
def Kahn.release (v : Nat) (s : Kahn) : Outcome Kahn := do
  let d ← int64 ((← Outcome.read s.inDeg v) - 1)
  let inDeg ← Outcome.write s.inDeg v d
  if d = 0 then
    let queue ← Outcome.write s.queue s.qt v
    pure { s with inDeg, queue, qt := s.qt + 1 }
  else pure { s with inDeg }

/-- A turn of the loop; `emit` is what is done with the node besides.
Source: backend_c.rs:2816-2827, 2870-2882 -/
def kahnTurn {τ : Type} (nn : Nat) (c : Csr) (emit : Nat → τ → Outcome τ) :
    Kahn × τ → Outcome ((Kahn × τ) ⊕ (Nat × τ))
  | (s, t) =>
    if s.qh < s.qt then do
      let u ← Outcome.read s.queue s.qh
      let t ← emit u t
      let s ← forNeighbours nn c u (fun _ => Kahn.release)
        { s with qh := s.qh + 1, processed := s.processed + 1 }
      pure (.inl (s, t))
    else pure (.inr (s.processed, t))

/-- Source: backend_c.rs:2796-2830 -/
def hasCycle (g : Graph) (heap : Nat → Bool) : Outcome (Bool × Graph) :=
  if g.numNodes == 0 then pure (false, g)
  else do
    let (c, g) ← g.forward heap
    let s ← Kahn.begin heap g.numNodes c
    let (processed, _) ← Outcome.loop (kahnTurn g.numNodes c fun _ (t : Unit) => pure t)
      (g.numNodes + 1) (s, ())
    pure (decide (processed < g.numNodes), g)

/-- `while (new_cap < needed) new_cap *= 2`, with a bound on the turns.
Source: backend_c.rs:2864 -/
def doubled (needed : Nat) : Nat → Nat → Outcome Nat :=
  Outcome.loop fun cap =>
    if cap < needed then pure (.inl (cap * 2 % 2 ^ 64)) else pure (.inr cap)

/-- Room for `needed` elements. Source: backend_c.rs:2861-2868 -/
def growOut (heap : Nat → Bool) (out : Vec Int64) (needed : Nat) : Outcome (Vec Int64) :=
  if out.capacity < needed then do
    let capacity ← doubled needed 65 (if out.capacity = 0 then 8 else out.capacity)
    if malloc heap (capacity * 8 % 2 ^ 64) then
      pure { out with
        data := grow out.data (capacity * 8 % 2 ^ 64 / 8) none
        capacity }
    else .aborted
  else pure out

/-- `out->data[out->len++] = u`. Source: backend_c.rs:2872 -/
def emitNode (u : Nat) (out : Vec Int64) : Outcome (Vec Int64) := do
  let data ← Outcome.write out.data out.len (some (Int64.ofInt u))
  pure { out with data, len := out.len + 1 }

/-- Source: backend_c.rs:2842-2885 -/
def topoSort (g : Graph) (heap : Nat → Bool) (out : Vec Int64) :
    Outcome (Nat × Vec Int64 × Graph) :=
  if g.numNodes == 0 then pure (0, out, g)
  else do
    let (c, g) ← g.forward heap
    let s ← Kahn.begin heap g.numNodes c
    let out ← growOut heap out (out.len + g.numNodes)
    let (processed, out) ← Outcome.loop (kahnTurn g.numNodes c emitNode) (g.numNodes + 1) (s, out)
    pure (processed, out, g)

/-! ## Distances -/

/-- `if (!done[i] && dist[i] < best) { best = dist[i]; u = i; }`
Source: backend_c.rs:2906, 2998 -/
def pickUnless (done : Array Bool) (dist : Array Int) (i : Nat) (p : Option Nat × Int) :
    Outcome (Option Nat × Int) := do
  if ← Outcome.read done i then pure p
  else do
    let d ← Outcome.read dist i
    if d < p.2 then pure (some i, d) else pure p

/-- `dist[i] = INF`, and of one node 0. Source: backend_c.rs:2901-2902, 2992-2993, 3054-3055 -/
def distances (nn src : Nat) (dist : Array Int) : Outcome (Array Int) := do
  let dist ← Outcome.forRange (fun i a => Outcome.write a i infinity) nn dist
  Outcome.write dist src 0

/-- `int64_t nd = best + g->adj_csr_weight[k]; if (nd < dist[v]) dist[v] = nd;`
Source: backend_c.rs:2916-2917, 3075-3076 -/
def relax (c : Csr) (best : Int) (k v : Nat) (dist : Array Int) : Outcome (Array Int) := do
  let w ← Outcome.read c.weight k
  let nd ← int64 (best + w.toInt)
  if nd < (← Outcome.read dist v) then Outcome.write dist v nd else pure dist

/-- One `iter`, with the number of the ones before it. Source: backend_c.rs:2903-2919 -/
def dijkstraTurn (nn : Nat) (c : Csr) (dst : Nat) :
    Nat × Array Int × Array Bool → Outcome ((Nat × Array Int × Array Bool) ⊕ Array Int)
  | (iter, dist, done) =>
    if iter < nn then do
      match ← Outcome.forRange (pickUnless done dist) nn (none, infinity) with
      | (none, _) => pure (.inr dist)
      | (some u, best) =>
        if best = infinity then pure (.inr dist)
        else do
          let done ← Outcome.write done u true
          if u = dst then pure (.inr dist)
          else do
            let dist ← forNeighbours nn c u (relax c best) dist
            pure (.inl (iter + 1, dist, done))
    else pure (.inr dist)

/-- `d == INF` gives `None`. Source: backend_c.rs:2920-2924, 3079-3083 -/
def distanceTo (dist : Array Int) (dst : Nat) : Outcome (Option Int) := do
  let d ← Outcome.read dist dst
  pure (if d = infinity then none else some d)

/-- Source: backend_c.rs:2890-2925 -/
def dijkstra (g : Graph) (heap : Nat → Bool) (src dst : Int64) : Outcome (Option Int × Graph) :=
  if g.numNodes == 0 || g.outside src || g.outside dst then pure (none, g)
  else if src = dst then pure (some 0, g)
  else do
    let (c, g) ← g.forward heap
    let dist ← allocate heap g.numNodes 8 0
    let done ← allocateZeroed heap g.numNodes 1 false
    let dist ← distances g.numNodes src.toInt.toNat dist
    let dist ← Outcome.loop (dijkstraTurn g.numNodes c dst.toInt.toNat) (g.numNodes + 1)
      (0, dist, done)
    let r ← distanceTo dist dst.toInt.toNat
    pure (r, g)

/-- The estimate of a node, and the node if it is the least so far.
Source: backend_c.rs:3059-3064 -/
def pickEstimate (done : Array Bool) (gs : Array Int) (h : Vec Int64) (i : Nat)
    (p : Option Nat × Int) : Outcome (Option Nat × Int) := do
  if ← Outcome.read done i then pure p
  else do
    let d ← Outcome.read gs i
    if d = infinity then pure p
    else do
      let hi ← Vec.load h.data i
      let room ← int64 (infinity - hi.toInt)
      let f ← if room < d then pure infinity else int64 (d + hi.toInt)
      if f < p.2 then pure (some i, f) else pure p

/-- Source: backend_c.rs:3056-3078 -/
def astarTurn (nn : Nat) (c : Csr) (h : Vec Int64) (dst : Nat) :
    Nat × Array Int × Array Bool → Outcome ((Nat × Array Int × Array Bool) ⊕ Array Int)
  | (iter, gs, done) =>
    if iter < nn then do
      match ← Outcome.forRange (pickEstimate done gs h) nn (none, infinity) with
      | (none, _) => pure (.inr gs)
      | (some u, _) => do
        let done ← Outcome.write done u true
        if u = dst then pure (.inr gs)
        else do
          let gu ← Outcome.read gs u
          let gs ← forNeighbours nn c u (relax c gu) gs
          pure (.inl (iter + 1, gs, done))
    else pure (.inr gs)

/-- Source: backend_c.rs:3040-3084 -/
def astar (g : Graph) (heap : Nat → Bool) (src dst : Int64) (h : Vec Int64) :
    Outcome (Option Int × Graph) :=
  if g.numNodes == 0 || g.outside src || g.outside dst then pure (none, g)
  else if h.len ≠ g.numNodes then pure (none, g)
  else if src = dst then pure (some 0, g)
  else do
    let (c, g) ← g.forward heap
    let gs ← allocate heap g.numNodes 8 0
    let done ← allocateZeroed heap g.numNodes 1 false
    let gs ← distances g.numNodes src.toInt.toNat gs
    let gs ← Outcome.loop (astarTurn g.numNodes c h dst.toInt.toNat) (g.numNodes + 1)
      (0, gs, done)
    let r ← distanceTo gs dst.toInt.toNat
    pure (r, g)

/-! ## Spanning trees -/

/-- One turn of `while (j >= 0 && g->edge_weight[idx[j]] > cw)`.
Source: backend_c.rs:2946-2949 -/
def shiftIndex (weights : Array Int64) (cw : Int64) :
    Array Nat × Int → Outcome ((Array Nat × Int) ⊕ (Array Nat × Int))
  | (idx, j) =>
    if 0 ≤ j then do
      let e ← Outcome.read idx j.toNat
      if cw < (← Outcome.read weights e) then
        let idx ← Outcome.write idx (j.toNat + 1) e
        pure (.inl (idx, j - 1))
      else pure (.inr (idx, j))
    else pure (.inr (idx, j))

/-- The edge numbers, by weight. Source: backend_c.rs:2942-2951 -/
def sortEdges (weights : Array Int64) (ne : Nat) (idx : Array Nat) : Outcome (Array Nat) :=
  Outcome.forRange
    (fun n idx => do
      let cur ← Outcome.read idx (n + 1)
      let cw ← Outcome.read weights cur
      let (idx, j) ← Outcome.loop (shiftIndex weights cw) (ne + 1) (idx, n)
      Outcome.write idx (j + 1).toNat cur)
    (ne - 1) idx

/-- `while (parent[r] != r) r = parent[r];` Source: backend_c.rs:2962, 2964 -/
def findRoot (parent : Array Nat) (x : Nat) : Outcome Nat :=
  Outcome.loop
    (fun r => do
      let p ← Outcome.read parent r
      if p ≠ r then pure (.inl p) else pure (.inr r))
    (parent.size + 1) x

/-- `while (parent[p] != r) { n = parent[p]; parent[p] = r; p = n; }`
Source: backend_c.rs:2963, 2965 -/
def compressPath (parent : Array Nat) (r x : Nat) : Outcome (Array Nat) :=
  Outcome.loop
    (fun (s : Array Nat × Nat) => do
      let n ← Outcome.read s.1 s.2
      if n ≠ r then
        let parent ← Outcome.write s.1 s.2 r
        pure (.inl (parent, n))
      else pure (.inr s.1))
    (parent.size + 1) (parent, x)

/-- `parent`, `total` and `in_mst`. -/
structure Kruskal where
  parent : Array Nat
  total : Int
  inMst : Nat

/-- One turn over the sorted edges; the loop is left when there are enough.
Source: backend_c.rs:2956-2971 -/
def kruskalTurn (g : Graph) (idx : Array Nat) :
    Nat × Kruskal → Outcome ((Nat × Kruskal) ⊕ Kruskal)
  | (k, s) =>
    if k < g.numEdges then do
      let e ← Outcome.read idx k
      let src ← Outcome.read g.edgeSrc e
      let dst ← Outcome.read g.edgeDst e
      if IsNode g.numNodes src ∧ IsNode g.numNodes dst then
        let rs ← findRoot s.parent src.toInt.toNat
        let parent ← compressPath s.parent rs src.toInt.toNat
        let rd ← findRoot parent dst.toInt.toNat
        let parent ← compressPath parent rd dst.toInt.toNat
        if rs = rd then pure (.inl (k + 1, { s with parent }))
        else do
          let parent ← Outcome.write parent rs rd
          let total ← int64 (s.total + (← Outcome.read g.edgeWeight e).toInt)
          if g.numNodes - 1 ≤ s.inMst + 1 then pure (.inr ⟨parent, total, s.inMst + 1⟩)
          else pure (.inl (k + 1, ⟨parent, total, s.inMst + 1⟩))
      else pure (.inl (k + 1, s))
    else pure (.inr s)

/-- Source: backend_c.rs:2932-2976 -/
def mstKruskal (g : Graph) (heap : Nat → Bool) : Outcome (Option Int) :=
  if g.numNodes == 0 then pure none
  else if g.numNodes == 1 then pure (some 0)
  else do
    let idx ← allocate heap (if g.numEdges = 0 then 1 else g.numEdges) 8 0
    let parent ← allocate heap g.numNodes 8 0
    let idx ← Outcome.forRange (fun i a => Outcome.write a i i) g.numEdges idx
    let idx ← sortEdges g.edgeWeight g.numEdges idx
    let parent ← Outcome.forRange (fun i a => Outcome.write a i i) g.numNodes parent
    let s ← Outcome.loop (kruskalTurn g idx) (g.numEdges + 1) (0, ⟨parent, 0, 0⟩)
    pure (if g.numNodes - 1 ≤ s.inMst then some s.total else none)

/-- `if (in_tree[v]) continue; w = weight[k]; if (w < best[v]) best[v] = w;`
Source: backend_c.rs:3010-3012, 3020-3022 -/
def improve (c : Csr) (inTree : Array Bool) (k v : Nat) (best : Array Int) :
    Outcome (Array Int) := do
  if ← Outcome.read inTree v then pure best
  else do
    let w ← Outcome.read c.weight k
    if w.toInt < (← Outcome.read best v) then Outcome.write best v w.toInt else pure best

/-- `in_tree`, `best`, `total` and `added`. -/
structure Prim where
  inTree : Array Bool
  best : Array Int
  total : Int
  added : Nat

/-- One `iter`, with the number of the ones before it. Source: backend_c.rs:2995-3024 -/
def primTurn (nn : Nat) (c r : Csr) : Nat × Prim → Outcome ((Nat × Prim) ⊕ Prim)
  | (iter, s) =>
    if iter < nn then do
      match ← Outcome.forRange (pickUnless s.inTree s.best) nn (none, infinity) with
      | (none, _) => pure (.inr s)
      | (some u, w) => do
        let inTree ← Outcome.write s.inTree u true
        let total ← int64 (s.total + w)
        let best ← forNeighbours nn c u (improve c inTree) s.best
        let best ← forNeighbours nn r u (improve r inTree) best
        pure (.inl (iter + 1, ⟨inTree, best, total, s.added + 1⟩))
    else pure (.inr s)

/-- Source: backend_c.rs:2980-3029 -/
def mstPrim (g : Graph) (heap : Nat → Bool) : Outcome (Option Int × Graph) :=
  if g.numNodes == 0 then pure (none, g)
  else do
    let (c, g) ← g.forward heap
    let (r, g) ← g.backward heap
    let inTree ← allocateZeroed heap g.numNodes 1 false
    let best ← allocate heap g.numNodes 8 0
    let best ← distances g.numNodes 0 best
    let s ← Outcome.loop (primTurn g.numNodes c r) (g.numNodes + 1) (0, ⟨inTree, best, 0, 0⟩)
    pure (if s.added = g.numNodes then some s.total else none, g)

end Vani.Backend.Graph
