import Vani.Backend.Vec

/-!
# The emitted sorted set and map

`intent_btreeset_i64` and `intent_btreemap_i64_i64`: the keys in increasing order in one
array, found by binary search, and for a map the values in a second array beside it. An
insertion opens a cell at the place of the key, a removal closes it. The set is laid out
like a vector of its keys, and is one here. A range query appends to a vector.
-/

set_option autoImplicit false

namespace Vani.Backend

open Vani.Library

namespace BTree

/-- One turn of `lower_bound`. Source: backend_c.rs:1364-1367, 1526-1529 -/
def boundTurn (keys : Array (Option Int64)) (k : Int64) :
    Nat × Nat → Outcome ((Nat × Nat) ⊕ Nat)
  | (lo, hi) =>
    if lo < hi then do
      let x ← Vec.load keys (lo + (hi - lo) / 2)
      pure (.inl (if x < k then (lo + (hi - lo) / 2 + 1, hi) else (lo, lo + (hi - lo) / 2)))
    else pure (.inr lo)

/-- Source: backend_c.rs:1362-1369, 1524-1531 -/
def lowerBound (keys : Array (Option Int64)) (len : Nat) (k : Int64) : Outcome Nat :=
  Outcome.loop (boundTurn keys k) (len + 1) (0, len)

/-- `i < len && keys[i] == k`. Source: backend_c.rs:1372, 1389, 1402, 1534, 1557, 1563, 1585 -/
def found (keys : Array (Option Int64)) (len i : Nat) (k : Int64) : Outcome Bool := do
  if i < len then
    let x ← Vec.load keys i
    pure (x == k)
  else pure false

/-- The capacity after a growth of an array that starts with `first` cells.
Source: backend_c.rs:1391, 1420, 1569, 1846 -/
def grownCapacity (first capacity : Nat) : Nat := if capacity = 0 then first else capacity * 2

/-- `realloc` to `n` cells. -/
def extend (data : Array (Option Int64)) (n : Nat) : Array (Option Int64) :=
  data ++ Array.replicate (n - data.size) none

/-- Room for one more element. Source: backend_c.rs:1390-1394, 1419-1424, 1845-1849 -/
def reserve (first : Nat) (heap : Nat → Bool) (v : Vec Int64) : Outcome (Vec Int64) :=
  if v.capacity ≤ v.len then
    if malloc heap (grownCapacity first v.capacity * 8) then
      pure { v with
        data := extend v.data (grownCapacity first v.capacity)
        capacity := grownCapacity first v.capacity }
    else .aborted
  else pure v

/-- The cells after `i` move down by one. Source: backend_c.rs:1403, 1587-1590 -/
def closeCell (v : Vec Int64) (i : Nat) : Outcome (Array (Option Int64)) :=
  if i + 1 < v.len then Outcome.copy v.data i v.data (i + 1) (v.len - i - 1) else pure v.data

/-- One turn of a range query, which appends from `src` to `out`.
Source: backend_c.rs:1418-1427, 1620-1629, 1636-1645 -/
def rangeTurn (heap : Nat → Bool) (keys src : Array (Option Int64)) (len : Nat) (hi : Int64) :
    Nat × Int × Vec Int64 → Outcome ((Nat × Int × Vec Int64) ⊕ (Int × Vec Int64))
  | (i, added, out) =>
    if i < len then do
      let k ← Vec.load keys i
      if k ≤ hi then
        let out ← reserve 8 heap out
        let x ← Vec.load src i
        let data ← Outcome.write out.data out.len (some x)
        pure (.inl (i + 1, added + 1, { out with data, len := out.len + 1 }))
      else pure (.inr (added, out))
    else pure (.inr (added, out))

/-- Source: backend_c.rs:1414-1429, 1616-1631, 1632-1647 -/
def range (heap : Nat → Bool) (keys src : Array (Option Int64)) (len : Nat) (lo hi : Int64)
    (out : Vec Int64) : Outcome (Int × Vec Int64) :=
  if hi < lo then pure (0, out)
  else do
    let i ← lowerBound keys len lo
    Outcome.loop (rangeTurn heap keys src len hi) (len + 1) (i, 0, out)

/-- Source: backend_c.rs:1437-1441, 1597-1601 -/
def least (keys : Array (Option Int64)) (len : Nat) : Outcome (Option Int64) :=
  if len = 0 then pure none else do
    let k ← Vec.load keys 0
    pure (some k)

/-- Source: backend_c.rs:1442-1446, 1602-1606 -/
def greatest (keys : Array (Option Int64)) (len : Nat) : Outcome (Option Int64) :=
  if len = 0 then pure none else do
    let k ← Vec.load keys (len - 1)
    pure (some k)

/-- What a program finds in a vector. -/
def contents (v : Vec Int64) : List (Option Int64) := v.data.toList.take v.len

end BTree

/-! ## The set -/

/-- `keys` are the `data`. Source: backend_c.rs:1352 -/
abbrev BTreeSet := Vec Int64

namespace BTreeSet

/-- Source: backend_c.rs:1353-1355 -/
def new : BTreeSet := ⟨#[], 0, 0⟩

/-- Source: backend_c.rs:1370-1373 -/
def contains (s : BTreeSet) (k : Int64) : Outcome Bool := do
  let i ← BTree.lowerBound s.data s.len k
  BTree.found s.data s.len i k

/-- Source: backend_c.rs:1374-1376 -/
def length (s : BTreeSet) : Int := toInt64 s.len

/-- Source: backend_c.rs:1379-1386 -/
def clear (s : BTreeSet) : Int × BTreeSet := (toInt64 s.len, new)

/-- Source: backend_c.rs:1387-1399 -/
def insert (heap : Nat → Bool) (s : BTreeSet) (k : Int64) : Outcome (Bool × BTreeSet) := do
  let i ← BTree.lowerBound s.data s.len k
  if ← BTree.found s.data s.len i k then pure (false, s)
  else
    let s ← BTree.reserve 4 heap s
    let data ← s.openCell i k
    pure (true, { s with data, len := s.len + 1 })

/-- Source: backend_c.rs:1400-1406 -/
def remove (s : BTreeSet) (k : Int64) : Outcome (Bool × BTreeSet) := do
  let i ← BTree.lowerBound s.data s.len k
  if ← BTree.found s.data s.len i k then
    let data ← BTree.closeCell s i
    pure (true, { s with data, len := s.len - 1 })
  else pure (false, s)

end BTreeSet

/-- The operations on a set and on the vector its range queries append to. -/
inductive BTreeSetOp
  | new
  | insert (k : Int64)
  | contains (k : Int64)
  | remove (k : Int64)
  | len
  | clear
  | min
  | max
  | range (lo hi : Int64)
  | push (x : Int64)
  | vec

/-- What an operation returns; a range query also with what is then in the vector. -/
inductive BTreeResult
  | unit
  | bool (b : Bool)
  | int (n : Int)
  | value (v : Option Int64)
  | appended (n : Int) (contents : List (Option Int64))
  deriving DecidableEq

/-- One operation on the emitted set and the vector, under a heap. -/
def BTreeSet.step : BTreeSet × Vec Int64 → BTreeSetOp × (Nat → Bool) →
    Outcome (BTreeResult × (BTreeSet × Vec Int64))
  | (_, out), (.new, _) => pure (.unit, (new, out))
  | (s, out), (.insert k, heap) => do
    let (b, s) ← BTreeSet.insert heap s k
    pure (.bool b, (s, out))
  | (s, out), (.contains k, _) => do
    let b ← BTreeSet.contains s k
    pure (.bool b, (s, out))
  | (s, out), (.remove k, _) => do
    let (b, s) ← BTreeSet.remove s k
    pure (.bool b, (s, out))
  | (s, out), (.len, _) => pure (.int (BTreeSet.length s), (s, out))
  | (s, out), (.clear, _) =>
    let (n, s) := BTreeSet.clear s
    pure (.int n, (s, out))
  | (s, out), (.min, _) => do
    let k ← BTree.least s.data s.len
    pure (.value k, (s, out))
  | (s, out), (.max, _) => do
    let k ← BTree.greatest s.data s.len
    pure (.value k, (s, out))
  | (s, out), (.range lo hi, heap) => do
    let (n, out) ← BTree.range heap s.data s.data s.len lo hi out
    pure (.appended n (BTree.contents out), (s, out))
  | (s, out), (.push x, heap) => do
    let out ← out.push 8 heap x
    pure (.unit, (s, out))
  | (s, _), (.vec, heap) => do
    let out ← Vec.fromArray 8 heap []
    pure (.unit, (s, out))

/-- A growth of the vector by range queries finds no memory. -/
def BTree.rangeRefused (heap : Nat → Bool) (out : Vec Int64) : Prop :=
  ∃ n : Nat, malloc heap ((BTree.grownCapacity 8)^[n + 1] out.capacity * 8) = false

/-- A request of the vector's own operations is refused. -/
def BTree.vecRefused (heap : Nat → Bool) (out : Vec Int64) : Prop :=
  out.capacity ≤ out.len ∧ malloc heap (Vec.grownCapacity out.capacity * 8) = false

/-- The memory an operation asks for is refused. -/
def BTreeSet.refused : BTreeSet × Vec Int64 → BTreeSetOp × (Nat → Bool) → Prop
  | (s, _), (.insert _, heap) =>
    s.capacity ≤ s.len ∧ malloc heap (BTree.grownCapacity 4 s.capacity * 8) = false
  | (_, out), (.range _ _, heap) => BTree.rangeRefused heap out
  | (_, out), (.push _, heap) => BTree.vecRefused heap out
  | (_, _), (.vec, heap) => malloc heap (1 * 8) = false
  | _, _ => False

/-! ## The map -/

/-- Source: backend_c.rs:1513 -/
structure BTreeMap where
  keys : Array (Option Int64)
  values : Array (Option Int64)
  len : Nat
  capacity : Nat

namespace BTreeMap

/-- The keys as a vector. -/
def keyVec (m : BTreeMap) : Vec Int64 := ⟨m.keys, m.len, m.capacity⟩

/-- The values as a vector. -/
def valueVec (m : BTreeMap) : Vec Int64 := ⟨m.values, m.len, m.capacity⟩

/-- Source: backend_c.rs:1514-1518 -/
def new : BTreeMap := ⟨#[], #[], 0, 0⟩

/-- Source: backend_c.rs:1532-1535 -/
def containsKey (m : BTreeMap) (k : Int64) : Outcome Bool := do
  let i ← BTree.lowerBound m.keys m.len k
  BTree.found m.keys m.len i k

/-- Source: backend_c.rs:1536-1538 -/
def length (m : BTreeMap) : Int := toInt64 m.len

/-- Source: backend_c.rs:1541-1550 -/
def clear (m : BTreeMap) : Int × BTreeMap := (toInt64 m.len, new)

/-- Source: backend_c.rs:1554-1559 -/
def get (m : BTreeMap) (k : Int64) : Outcome (Option Int64) := do
  let i ← BTree.lowerBound m.keys m.len k
  if ← BTree.found m.keys m.len i k then
    let v ← Vec.load m.values i
    pure (some v)
  else pure none

/-- Room for one more entry. Source: backend_c.rs:1568-1573 -/
def reserve (heap : Nat → Bool) (m : BTreeMap) : Outcome BTreeMap :=
  if m.capacity ≤ m.len then
    if malloc heap (BTree.grownCapacity 4 m.capacity * 8) &&
        malloc heap (BTree.grownCapacity 4 m.capacity * 8) then
      pure { m with
        keys := BTree.extend m.keys (BTree.grownCapacity 4 m.capacity)
        values := BTree.extend m.values (BTree.grownCapacity 4 m.capacity)
        capacity := BTree.grownCapacity 4 m.capacity }
    else .aborted
  else pure m

/-- Source: backend_c.rs:1560-1581 -/
def insert (heap : Nat → Bool) (m : BTreeMap) (k v : Int64) :
    Outcome (Option Int64 × BTreeMap) := do
  let i ← BTree.lowerBound m.keys m.len k
  if ← BTree.found m.keys m.len i k then
    let old ← Vec.load m.values i
    let values ← Outcome.write m.values i (some v)
    pure (some old, { m with values })
  else
    let m ← m.reserve heap
    let keys ← m.keyVec.openCell i k
    let values ← m.valueVec.openCell i v
    pure (none, { m with keys, values, len := m.len + 1 })

/-- Source: backend_c.rs:1582-1593 -/
def remove (m : BTreeMap) (k : Int64) : Outcome (Option Int64 × BTreeMap) := do
  let i ← BTree.lowerBound m.keys m.len k
  if ← BTree.found m.keys m.len i k then
    let old ← Vec.load m.values i
    let keys ← BTree.closeCell m.keyVec i
    let values ← BTree.closeCell m.valueVec i
    pure (some old, { m with keys, values, len := m.len - 1 })
  else pure (none, m)

end BTreeMap

/-- The operations on a map and on the vector its range queries append to. -/
inductive BTreeMapOp
  | new
  | insert (k v : Int64)
  | get (k : Int64)
  | containsKey (k : Int64)
  | remove (k : Int64)
  | len
  | clear
  | minKey
  | maxKey
  | rangeKeys (lo hi : Int64)
  | rangeValues (lo hi : Int64)
  | push (x : Int64)
  | vec

/-- One operation on the emitted map and the vector, under a heap. -/
def BTreeMap.step : BTreeMap × Vec Int64 → BTreeMapOp × (Nat → Bool) →
    Outcome (BTreeResult × (BTreeMap × Vec Int64))
  | (_, out), (.new, _) => pure (.unit, (new, out))
  | (m, out), (.insert k v, heap) => do
    let (old, m) ← m.insert heap k v
    pure (.value old, (m, out))
  | (m, out), (.get k, _) => do
    let v ← m.get k
    pure (.value v, (m, out))
  | (m, out), (.containsKey k, _) => do
    let b ← m.containsKey k
    pure (.bool b, (m, out))
  | (m, out), (.remove k, _) => do
    let (old, m) ← m.remove k
    pure (.value old, (m, out))
  | (m, out), (.len, _) => pure (.int m.length, (m, out))
  | (m, out), (.clear, _) =>
    let (n, m) := m.clear
    pure (.int n, (m, out))
  | (m, out), (.minKey, _) => do
    let k ← BTree.least m.keys m.len
    pure (.value k, (m, out))
  | (m, out), (.maxKey, _) => do
    let k ← BTree.greatest m.keys m.len
    pure (.value k, (m, out))
  | (m, out), (.rangeKeys lo hi, heap) => do
    let (n, out) ← BTree.range heap m.keys m.keys m.len lo hi out
    pure (.appended n (BTree.contents out), (m, out))
  | (m, out), (.rangeValues lo hi, heap) => do
    let (n, out) ← BTree.range heap m.keys m.values m.len lo hi out
    pure (.appended n (BTree.contents out), (m, out))
  | (m, out), (.push x, heap) => do
    let out ← out.push 8 heap x
    pure (.unit, (m, out))
  | (m, _), (.vec, heap) => do
    let out ← Vec.fromArray 8 heap []
    pure (.unit, (m, out))

/-- The memory an operation asks for is refused. -/
def BTreeMap.refused : BTreeMap × Vec Int64 → BTreeMapOp × (Nat → Bool) → Prop
  | (m, _), (.insert _ _, heap) =>
    m.capacity ≤ m.len ∧ malloc heap (BTree.grownCapacity 4 m.capacity * 8) = false
  | (_, out), (.rangeKeys _ _, heap) => BTree.rangeRefused heap out
  | (_, out), (.rangeValues _ _, heap) => BTree.rangeRefused heap out
  | (_, out), (.push _, heap) => BTree.vecRefused heap out
  | (_, _), (.vec, heap) => malloc heap (1 * 8) = false
  | _, _ => False

end Vani.Backend
