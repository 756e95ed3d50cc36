import Vani.Backend.Probing

/-!
# The emitted hash set and hash map

`intent_hashset_i64` and `intent_hashmap_i64_i64`: open addressing over parallel arrays
with tombstones, doubled once half of the slots hold a key or a tombstone. A null pointer
is an array without elements. Sizes stay far below `2 ^ 63`, since `malloc` grants no
more, and are natural numbers here; `len` is returned as an `int64_t`.
-/

set_option autoImplicit false

namespace Vani.Backend

open Vani.Library

/-- The capacity after a growth. Source: backend_c.rs:1000, 1199 -/
def grownCapacity (capacity : Nat) : Nat := if capacity = 0 then 8 else capacity * 2

/-- Whether an insertion grows the table first. Source: backend_c.rs:1014, 1250 -/
def mustGrow (capacity len tombstones : Nat) : Bool :=
  capacity = 0 || (len + tombstones) * 2 ≥ capacity

/-- Source: backend_c.rs:953 -/
structure HashSet where
  keys : Array Int64
  occ : Array Occ
  len : Nat
  capacity : Nat
  tombstones : Nat
  deriving DecidableEq

namespace HashSet

/-- Source: backend_c.rs:963-968 -/
def new : HashSet := ⟨#[], #[], 0, 0, 0⟩

/-- Source: backend_c.rs:988-995 -/
def insertInto (s : HashSet) (k : Int64) : Outcome HashSet := do
  let i ← rehashLoop s.occ s.capacity k
  let keys ← Outcome.write s.keys i k
  let occ ← Outcome.write s.occ i .occupied
  pure { s with keys, occ, len := s.len + 1 }

/-- Source: backend_c.rs:996-1012 -/
def grow (heap : Nat → Bool) (s : HashSet) : Outcome HashSet :=
  let capacity := grownCapacity s.capacity
  if malloc heap (capacity * 8) && malloc heap capacity then
    Outcome.forRange
      (fun i t => do
        if (← Outcome.read s.occ i) = .occupied then t.insertInto (← Outcome.read s.keys i)
        else pure t)
      s.capacity
      ⟨Array.replicate capacity 0, Array.replicate capacity .empty, 0, capacity, 0⟩
  else .aborted

/-- The part of an insertion after the growth. Source: backend_c.rs:1015-1035 -/
def place (s : HashSet) (k : Int64) : Outcome (Bool × HashSet) := do
  match ← insertLoop s.occ s.keys s.capacity k with
  | .found _ => pure (false, s)
  | .free _ (some slot) =>
    let keys ← Outcome.write s.keys slot k
    let occ ← Outcome.write s.occ slot .occupied
    pure (true, { s with keys, occ, len := s.len + 1, tombstones := s.tombstones - 1 })
  | .free i none =>
    let keys ← Outcome.write s.keys i k
    let occ ← Outcome.write s.occ i .occupied
    pure (true, { s with keys, occ, len := s.len + 1 })

/-- Source: backend_c.rs:1013-1036 -/
def insert (heap : Nat → Bool) (s : HashSet) (k : Int64) : Outcome (Bool × HashSet) :=
  (if mustGrow s.capacity s.len s.tombstones then s.grow heap else pure s) >>= fun s => s.place k

/-- Source: backend_c.rs:1037-1047 -/
def contains (s : HashSet) (k : Int64) : Outcome Bool := do
  if s.capacity = 0 then pure false
  else
    match ← searchLoop s.occ s.keys s.capacity k with
    | some _ => pure true
    | none => pure false

/-- Source: backend_c.rs:1052-1066 -/
def remove (s : HashSet) (k : Int64) : Outcome (Bool × HashSet) := do
  if s.capacity = 0 then pure (false, s)
  else
    match ← searchLoop s.occ s.keys s.capacity k with
    | some i =>
      let occ ← Outcome.write s.occ i .tombstone
      pure (true, { s with occ, len := s.len - 1, tombstones := s.tombstones + 1 })
    | none => pure (false, s)

/-- Source: backend_c.rs:1067-1069 -/
def length (s : HashSet) : Int := toInt64 s.len

/-- Source: backend_c.rs:1073-1083 -/
def clear (s : HashSet) : Int × HashSet := (toInt64 s.len, new)

end HashSet

/-- The operations of a set. -/
inductive SetOp
  | new
  | insert (k : Int64)
  | contains (k : Int64)
  | remove (k : Int64)
  | len
  | clear

/-- What an operation returns. -/
inductive SetResult
  | unit
  | bool (b : Bool)
  | int (n : Int)
  deriving DecidableEq

/-- One operation on the emitted set, under a heap. -/
def HashSet.step (s : HashSet) : SetOp × (Nat → Bool) → Outcome (SetResult × HashSet)
  | (.new, _) => pure (.unit, new)
  | (.insert k, heap) => do
    let (b, s) ← s.insert heap k
    pure (.bool b, s)
  | (.contains k, _) => do
    let b ← s.contains k
    pure (.bool b, s)
  | (.remove k, _) => do
    let (b, s) ← s.remove k
    pure (.bool b, s)
  | (.len, _) => pure (.int s.length, s)
  | (.clear, _) =>
    let (n, s) := s.clear
    pure (.int n, s)

/-- An insertion that grows the set finds no memory. -/
def HashSet.refused (s : HashSet) : SetOp × (Nat → Bool) → Prop
  | (.insert _, heap) => mustGrow s.capacity s.len s.tombstones = true ∧
    (malloc heap (grownCapacity s.capacity * 8) && malloc heap (grownCapacity s.capacity)) = false
  | _ => False

/-- Source: backend_c.rs:1147 -/
structure HashMap where
  keys : Array Int64
  values : Array Int64
  occ : Array Occ
  len : Nat
  capacity : Nat
  tombstones : Nat
  deriving DecidableEq

namespace HashMap

/-- Source: backend_c.rs:1156-1161 -/
def new : HashMap := ⟨#[], #[], #[], 0, 0, 0⟩

/-- Source: backend_c.rs:1179-1186 -/
def insertRaw (m : HashMap) (k v : Int64) : Outcome HashMap := do
  let i ← rehashLoop m.occ m.capacity k
  let keys ← Outcome.write m.keys i k
  let values ← Outcome.write m.values i v
  let occ ← Outcome.write m.occ i .occupied
  pure { m with keys, values, occ, len := m.len + 1 }

/-- Source: backend_c.rs:1187-1207 -/
def grow (heap : Nat → Bool) (m : HashMap) : Outcome HashMap :=
  let capacity := grownCapacity m.capacity
  if malloc heap (capacity * 8) && malloc heap (capacity * 8) && malloc heap capacity then
    Outcome.forRange
      (fun i t => do
        if (← Outcome.read m.occ i) = .occupied then
          t.insertRaw (← Outcome.read m.keys i) (← Outcome.read m.values i)
        else pure t)
      m.capacity
      ⟨Array.replicate capacity 0, Array.replicate capacity 0, Array.replicate capacity .empty, 0,
        capacity, 0⟩
  else .aborted

/-- Source: backend_c.rs:1208-1217 -/
def containsKey (m : HashMap) (k : Int64) : Outcome Bool := do
  if m.capacity = 0 then pure false
  else
    match ← searchLoop m.occ m.keys m.capacity k with
    | some _ => pure true
    | none => pure false

/-- Source: backend_c.rs:1218-1220 -/
def length (m : HashMap) : Int := toInt64 m.len

/-- Source: backend_c.rs:1223-1235 -/
def clear (m : HashMap) : Int × HashMap := (toInt64 m.len, new)

/-- Source: backend_c.rs:1240-1250 -/
def get (m : HashMap) (k : Int64) : Outcome (Option Int64) := do
  if m.capacity = 0 then pure none
  else
    match ← searchLoop m.occ m.keys m.capacity k with
    | some i => some <$> Outcome.read m.values i
    | none => pure none

/-- The part of an insertion after the growth. Source: backend_c.rs:1253-1274 -/
def place (m : HashMap) (k v : Int64) : Outcome (Option Int64 × HashMap) := do
  match ← insertLoop m.occ m.keys m.capacity k with
  | .found i =>
    let old ← Outcome.read m.values i
    let values ← Outcome.write m.values i v
    pure (some old, { m with values })
  | .free _ (some slot) =>
    let keys ← Outcome.write m.keys slot k
    let values ← Outcome.write m.values slot v
    let occ ← Outcome.write m.occ slot .occupied
    pure (none, { m with keys, values, occ, len := m.len + 1, tombstones := m.tombstones - 1 })
  | .free i none =>
    let keys ← Outcome.write m.keys i k
    let values ← Outcome.write m.values i v
    let occ ← Outcome.write m.occ i .occupied
    pure (none, { m with keys, values, occ, len := m.len + 1 })

/-- Source: backend_c.rs:1251-1275 -/
def insert (heap : Nat → Bool) (m : HashMap) (k v : Int64) :
    Outcome (Option Int64 × HashMap) :=
  (if mustGrow m.capacity m.len m.tombstones then m.grow heap else pure m) >>= fun m =>
    m.place k v

/-- Source: backend_c.rs:1278-1294 -/
def remove (m : HashMap) (k : Int64) : Outcome (Option Int64 × HashMap) := do
  if m.capacity = 0 then pure (none, m)
  else
    match ← searchLoop m.occ m.keys m.capacity k with
    | some i =>
      let old ← Outcome.read m.values i
      let occ ← Outcome.write m.occ i .tombstone
      pure (some old, { m with occ, len := m.len - 1, tombstones := m.tombstones + 1 })
    | none => pure (none, m)

end HashMap

/-- The operations of a map. -/
inductive MapOp
  | new
  | insert (k v : Int64)
  | get (k : Int64)
  | containsKey (k : Int64)
  | remove (k : Int64)
  | len
  | clear

/-- What an operation returns; `Option<i64>` results are options. -/
inductive MapResult
  | unit
  | bool (b : Bool)
  | int (n : Int)
  | value (v : Option Int64)
  deriving DecidableEq

/-- One operation on the emitted map, under a heap. -/
def HashMap.step (m : HashMap) : MapOp × (Nat → Bool) → Outcome (MapResult × HashMap)
  | (.new, _) => pure (.unit, new)
  | (.insert k v, heap) => do
    let (old, m) ← m.insert heap k v
    pure (.value old, m)
  | (.get k, _) => do
    let v ← m.get k
    pure (.value v, m)
  | (.containsKey k, _) => do
    let b ← m.containsKey k
    pure (.bool b, m)
  | (.remove k, _) => do
    let (old, m) ← m.remove k
    pure (.value old, m)
  | (.len, _) => pure (.int m.length, m)
  | (.clear, _) =>
    let (n, m) := m.clear
    pure (.int n, m)

/-- An insertion that grows the map finds no memory. -/
def HashMap.refused (m : HashMap) : MapOp × (Nat → Bool) → Prop
  | (.insert _ _, heap) => mustGrow m.capacity m.len m.tombstones = true ∧
    (malloc heap (grownCapacity m.capacity * 8) && malloc heap (grownCapacity m.capacity * 8) &&
      malloc heap (grownCapacity m.capacity)) = false
  | _ => False

end Vani.Backend
