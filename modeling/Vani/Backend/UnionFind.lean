import Vani.Library.Outcome
import Vani.Library.CInteger

/-!
# The emitted union-find

`intent_union_find`: an array of parents, an array of ranks, and the number of sets. A find
walks to the root and then points every element on its way at it, a union points the root of
less rank at the other. A find returns an index outside the arrays as it is.
-/

set_option autoImplicit false

namespace Vani.Backend

open Vani.Library

/-- Source: backend_c.rs:1707 -/
structure UnionFind where
  parent : Array Int64
  rank : Array Int
  n : Nat
  sets : Nat

namespace UnionFind

/-- `a[i]` for a signed index. -/
def cell {α : Type} (a : Array α) (i : Int64) : Outcome α :=
  if 0 ≤ i.toInt then Outcome.read a i.toInt.toNat else .stuck

/-- `a[i] = x` for a signed index. -/
def setCell {α : Type} (a : Array α) (i : Int64) (x : α) : Outcome (Array α) :=
  if 0 ≤ i.toInt then Outcome.write a i.toInt.toNat x else .stuck

/-- Every one of the first `n` elements its own parent. Source: backend_c.rs:1719, 1772 -/
def singletons (n : Nat) (parent : Array Int64) : Outcome (Array Int64) :=
  Outcome.forRange (fun i parent => Outcome.write parent i (Int64.ofNat i)) n parent

/-- A structure that has been dropped. Source: backend_c.rs:1722-1727 -/
def dropped : UnionFind := ⟨#[], #[], 0, 0⟩

/-- The bytes `malloc` is asked for wrap, those `calloc` is asked for do not.
Source: backend_c.rs:1708-1721 -/
def new (heap : Nat → Bool) (n : Int64) : Outcome UnionFind :=
  if n.toInt ≤ 0 then pure ⟨#[], #[], 0, 0⟩
  else if malloc heap (n.toInt.toNat * 8 % 2 ^ 64) && malloc heap (n.toInt.toNat * 8) then do
    let parent ← singletons n.toInt.toNat
      (Array.replicate (n.toInt.toNat * 8 % 2 ^ 64 / 8) 0)
    pure ⟨parent, Array.replicate n.toInt.toNat 0, n.toInt.toNat, n.toInt.toNat⟩
  else .aborted

/-- One turn of the walk to the root. Source: backend_c.rs:1732 -/
def walkTurn (parent : Array Int64) (r : Int64) : Outcome (Int64 ⊕ Int64) := do
  let p ← cell parent r
  pure (if p = r then .inr r else .inl p)

/-- One turn of the path compression. Source: backend_c.rs:1736-1740 -/
def compressTurn (r : Int64) : Int64 × Array Int64 →
    Outcome ((Int64 × Array Int64) ⊕ Array Int64)
  | (cur, parent) => do
    let next ← cell parent cur
    if next = r then pure (.inr parent)
    else
      let parent ← setCell parent cur r
      pure (.inl (next, parent))

/-- Source: backend_c.rs:1728-1742 -/
def find (uf : UnionFind) (x : Int64) : Outcome (Int64 × UnionFind) :=
  if x.toInt < 0 ∨ uf.n ≤ toUInt64 x then pure (x, uf)
  else do
    let r ← Outcome.loop (walkTurn uf.parent) (uf.n + 1) x
    let parent ← Outcome.loop (compressTurn r) (uf.n + 1) (x, uf.parent)
    pure (r, { uf with parent })

/-- Source: backend_c.rs:1743-1758 -/
def union (uf : UnionFind) (a b : Int64) : Outcome (Bool × UnionFind) := do
  let (ra, uf) ← uf.find a
  let (rb, uf) ← uf.find b
  if ra = rb then pure (false, uf)
  else
    let rankA ← cell uf.rank ra
    let rankB ← cell uf.rank rb
    let sets := if 0 < uf.sets then uf.sets - 1 else uf.sets
    if rankA < rankB then
      let parent ← setCell uf.parent ra rb
      pure (true, { uf with parent, sets })
    else if rankB < rankA then
      let parent ← setCell uf.parent rb ra
      pure (true, { uf with parent, sets })
    else
      let parent ← setCell uf.parent rb ra
      let rank ← setCell uf.rank ra (cLong.wrap (rankA + 1))
      pure (true, { uf with parent, rank, sets })

/-- Source: backend_c.rs:1759-1761 -/
def connected (uf : UnionFind) (a b : Int64) : Outcome (Bool × UnionFind) := do
  let (ra, uf) ← uf.find a
  let (rb, uf) ← uf.find b
  pure (ra == rb, uf)

/-- Source: backend_c.rs:1762-1764 -/
def count (uf : UnionFind) : Int := toInt64 uf.sets

/-- Source: backend_c.rs:1771-1773 -/
def resetParent (uf : UnionFind) : Outcome (Array Int64) :=
  if uf.parent ≠ #[] ∧ 0 < uf.n then singletons uf.n uf.parent else pure uf.parent

/-- Source: backend_c.rs:1774-1776 -/
def resetRank (uf : UnionFind) : Outcome (Array Int) :=
  if uf.rank ≠ #[] ∧ 0 < uf.n then Outcome.copy uf.rank 0 (Array.replicate uf.n 0) 0 uf.n
  else pure uf.rank

/-- Source: backend_c.rs:1769-1779 -/
def clear (uf : UnionFind) : Outcome (Int × UnionFind) := do
  let parent ← uf.resetParent
  let rank ← uf.resetRank
  pure (toInt64 uf.sets, { uf with parent, rank, sets := uf.n })

end UnionFind

/-- The operations on a union-find. -/
inductive UnionFindOp
  | new (n : Int64)
  | find (x : Int64)
  | union (a b : Int64)
  | connected (a b : Int64)
  | count
  | clear

/-- What an operation returns. -/
inductive UnionFindResult
  | unit
  | bool (b : Bool)
  | int (n : Int)
  | index (x : Int64)
  deriving DecidableEq

/-- One operation on the emitted union-find, under a heap. -/
def UnionFind.step (uf : UnionFind) : UnionFindOp × (Nat → Bool) →
    Outcome (UnionFindResult × UnionFind)
  | (.new n, heap) => do
    let uf ← UnionFind.new heap n
    pure (.unit, uf)
  | (.find x, _) => do
    let (r, uf) ← uf.find x
    pure (.index r, uf)
  | (.union a b, _) => do
    let (merged, uf) ← uf.union a b
    pure (.bool merged, uf)
  | (.connected a b, _) => do
    let (same, uf) ← uf.connected a b
    pure (.bool same, uf)
  | (.count, _) => pure (.int uf.count, uf)
  | (.clear, _) => do
    let (prior, uf) ← uf.clear
    pure (.int prior, uf)

/-- The memory for a new union-find is refused. -/
def UnionFind.refused (_ : UnionFind) : UnionFindOp × (Nat → Bool) → Prop
  | (.new n, heap) =>
    0 < n.toInt ∧ (malloc heap (n.toInt.toNat * 8 % 2 ^ 64) = false ∨
      malloc heap (n.toInt.toNat * 8) = false)
  | _ => False

end Vani.Backend
