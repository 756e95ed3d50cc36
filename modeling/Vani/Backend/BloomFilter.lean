import Vani.Backend.Probing

/-!
# The emitted Bloom filter

`intent_bloom_filter`: an array of bits and a number of hashes. An insertion sets the bits at
the positions of its key's probes, a query reads them. The probes come from two hashes of
the key, as 64-bit numbers that wrap.
-/

set_option autoImplicit false

namespace Vani.Backend

open Vani.Library

/-- Source: backend_c.rs:1964 -/
structure BloomFilter where
  bits : Array UInt8
  numBits : Int
  numHashes : Int
  insertCount : Int

namespace BloomFilter

/-- Source: backend_c.rs:1965-1973 -/
def hash2 (x : Int64) : UInt64 :=
  (List.range 8).foldl
    (fun h i => (h ^^^ ((x.toUInt64 >>> UInt64.ofNat (i * 8)) &&& 0xff)) * 0xc6a4a7935bd1e995)
    0x84222325cbf29ce4

/-- The conversion of an `int64_t` to a `size_t` or a `uint64_t`. -/
def toSize (n : Int) : Nat := (n % 2 ^ 64).toNat

/-- `(num_bits + 7) / 8`. -/
def byteCount (numBits : Int) : Int := (cLong.wrap (numBits + 7)).tdiv 8

/-- Source: backend_c.rs:1974-1985 -/
def new (heap : Nat → Bool) (numBits numHashes : Int64) : Outcome BloomFilter :=
  let numBits := if numBits.toInt ≤ 0 then 64 else numBits.toInt
  let numHashes := if numHashes.toInt ≤ 0 then 1 else numHashes.toInt
  let bytes := byteCount numBits
  if malloc heap (toSize bytes) then
    pure ⟨Array.replicate (toSize bytes) 0, cLong.wrap (bytes * 8), numHashes, 0⟩
  else .aborted

/-- A filter that has been dropped. Source: backend_c.rs:1986-1989 -/
def dropped : BloomFilter := ⟨#[], 0, 0, 0⟩

/-- The second hash, not zero. Source: backend_c.rs:1992-1993, 2004-2005 -/
def stride (x : Int64) : UInt64 := if hash2 x = 0 then 1 else hash2 x

/-- The position of a probe; a remainder by zero traps. Source: backend_c.rs:1996, 2008 -/
def position (bf : BloomFilter) (x : Int64) (k : Nat) : Outcome Nat :=
  if toSize bf.numBits = 0 then .stuck
  else pure ((hashKey x + UInt64.ofNat k * stride x).toNat % toSize bf.numBits)

/-- `(uint8_t)(1u << (pos & 7))` -/
def mask (pos : Nat) : UInt8 := UInt8.ofNat (1 <<< (pos &&& 7))

/-- Source: backend_c.rs:1997 -/
def mark (bits : Array UInt8) (pos : Nat) : Outcome (Array UInt8) := do
  let b ← Outcome.read bits (pos >>> 3)
  Outcome.write bits (pos >>> 3) (b ||| mask pos)

/-- Source: backend_c.rs:1990-2001 -/
def insert (bf : BloomFilter) (x : Int64) : Outcome (Int × BloomFilter) := do
  let bits ← Outcome.forRange (fun k bits => do
    let pos ← position bf x k
    mark bits pos) bf.numHashes.toNat bf.bits
  pure (cLong.wrap (bf.insertCount + 1),
    { bf with bits, insertCount := cLong.wrap (bf.insertCount + 1) })

/-- One turn of a query. Source: backend_c.rs:2007-2010 -/
def containsTurn (bf : BloomFilter) (x : Int64) (k : Nat) : Outcome (Nat ⊕ Bool) :=
  if (k : Int) < bf.numHashes then do
    let pos ← position bf x k
    let b ← Outcome.read bf.bits (pos >>> 3)
    if b &&& mask pos = 0 then pure (.inr false) else pure (.inl (k + 1))
  else pure (.inr true)

/-- Source: backend_c.rs:2002-2012 -/
def contains (bf : BloomFilter) (x : Int64) : Outcome Bool :=
  Outcome.loop (containsTurn bf x) (bf.numHashes.toNat + 1) 0

/-- `memset(bits, 0, n)` -/
def zero (bits : Array UInt8) (n : Nat) : Outcome (Array UInt8) :=
  Outcome.copy bits 0 (Array.replicate n 0) 0 n

/-- Source: backend_c.rs:2017-2025 -/
def clear (bf : BloomFilter) : Outcome (Int × BloomFilter) :=
  if bf.bits ≠ #[] ∧ 0 < bf.numBits then do
    let bits ← zero bf.bits (toSize (byteCount bf.numBits))
    pure (bf.insertCount, { bf with bits, insertCount := 0 })
  else pure (bf.insertCount, { bf with insertCount := 0 })

end BloomFilter

/-- The operations on a filter. -/
inductive BloomFilterOp
  | new (numBits numHashes : Int64)
  | insert (x : Int64)
  | contains (x : Int64)
  | clear
  | len
  | count

/-- What an operation returns. -/
inductive BloomFilterResult
  | unit
  | bool (b : Bool)
  | int (n : Int)
  deriving DecidableEq

/-- One operation on the emitted filter, under a heap. Source: backend_c.rs:1974-2031 -/
def BloomFilter.step (bf : BloomFilter) : BloomFilterOp × (Nat → Bool) →
    Outcome (BloomFilterResult × BloomFilter)
  | (.new numBits numHashes, heap) => do
    let bf ← BloomFilter.new heap numBits numHashes
    pure (.unit, bf)
  | (.insert x, _) => do
    let (n, bf) ← bf.insert x
    pure (.int n, bf)
  | (.contains x, _) => do
    let b ← bf.contains x
    pure (.bool b, bf)
  | (.clear, _) => do
    let (n, bf) ← bf.clear
    pure (.int n, bf)
  | (.len, _) => pure (.int bf.numBits, bf)
  | (.count, _) => pure (.int bf.insertCount, bf)

/-- The memory for the bits of a new filter is refused. -/
def BloomFilter.refused (_ : BloomFilter) : BloomFilterOp × (Nat → Bool) → Prop
  | (.new numBits _, heap) =>
    malloc heap (toSize (byteCount (if numBits.toInt ≤ 0 then 64 else numBits.toInt))) = false
  | _ => False

end Vani.Backend
