import Vani.Program.Facts

/-!
# The structural prover

`prove e` is accepted without the solver where the shape of `e` decides it: a comparison of
an expression with itself, and connectives of such comparisons.
-/

set_option autoImplicit false

namespace Vani.Program

/-! ## Equality of types -/

mutual

/-- The derived equality of types. Source: ast.rs:587-798 -/
def Ty.same : Ty → Ty → Bool
  | .int s, .int t => s == t
  | .float s, .float t => s == t
  | .bool, .bool => true
  | .str, .str => true
  | .ownedStr, .ownedStr => true
  | .array s m, .array t n => s.same t && m == n
  | .vec s, .vec t => s.same t
  | .tuple ss, .tuple ts => sameTypes ss ts
  | .struct m, .struct n => m == n
  | .enum m, .enum n => m == n
  | .apply m ss, .apply n ts => m == n && sameTypes ss ts
  | .param m, .param n => m == n
  | .ref s, .ref t => s.same t
  | .refMut s, .refMut t => s.same t
  | .task, .task => true
  | .atomic s, .atomic t => s.same t
  | .channel s m, .channel t n => s.same t && m == n
  | .mutex s, .mutex t => s.same t
  | .guard s, .guard t => s.same t
  | .fnPtr ss s, .fnPtr ts t => sameTypes ss ts && s.same t
  | .object m, .object n => m == n
  | .condvar, .condvar => true
  | .deque s, .deque t => s.same t
  | .hashSet s, .hashSet t => s.same t
  | .hashMap k s, .hashMap l t => k.same l && s.same t
  | .bTreeSet s, .bTreeSet t => s.same t
  | .bTreeMap k s, .bTreeMap l t => k.same l && s.same t
  | .unionFind, .unionFind => true
  | .binaryHeap s, .binaryHeap t => s.same t
  | .bloomFilter, .bloomFilter => true
  | .bst s, .bst t => s.same t
  | .graph, .graph => true
  | .trie, .trie => true
  | .skipList, .skipList => true
  | _, _ => false

/-- Lists of one length with equal types. -/
def sameTypes : List Ty → List Ty → Bool
  | [], [] => true
  | s :: ss, t :: ts => s.same t && sameTypes ss ts
  | _, _ => false

end

/-! ## The prover -/

mutual

/-- Source: checker.rs:25418-25455 -/
def exprsEqual : Expr → Expr → Bool
  | .int x, .int y => x == y
  | .float x, .float y => x == y
  | .bool x, .bool y => x == y
  | .var x, .var y => x == y
  | .unary opA ea, .unary opB eb => opA == opB && exprsEqual ea eb
  | .binary opA la ra, .binary opB lb rb => opA == opB && exprsEqual la lb && exprsEqual ra rb
  | .cast ea ta, .cast eb tb => ta.same tb && exprsEqual ea eb
  | .call na aa, .call nb ab => na == nb && allExprsEqual aa ab
  | .index aa ia, .index ab ib => exprsEqual aa ab && exprsEqual ia ib
  | .len aa, .len ab => exprsEqual aa ab
  | .arrayLit ea, .arrayLit eb => allExprsEqual ea eb
  | _, _ => false

/-- Lists of one length with equal elements. Source: checker.rs:25441, 25452 -/
def allExprsEqual : List Expr → List Expr → Bool
  | [], [] => true
  | x :: xs, y :: ys => exprsEqual x y && allExprsEqual xs ys
  | _, _ => false

end

mutual

/-- Source: checker.rs:25392-25404 -/
def isStructurallyTrue : Expr → Bool
  | .bool true => true
  | .binary op left right =>
    match op with
    | .eq | .le | .ge => exprsEqual left right
    | .or => isStructurallyTrue left || isStructurallyTrue right
    | .and => isStructurallyTrue left && isStructurallyTrue right
    | _ => false
  | .unary .not expr => isStructurallyFalse expr
  | _ => false

/-- Source: checker.rs:25406-25416 -/
def isStructurallyFalse : Expr → Bool
  | .bool false => true
  | .binary op left right =>
    match op with
    | .ne | .lt | .gt => exprsEqual left right
    | _ => false
  | .unary .not expr => isStructurallyTrue expr
  | _ => false

end

/-!
## Equality of types

The comparison that `Type` derives decides equality.
-/

mutual

/-- Types compare equal exactly if they are equal. -/
theorem Ty.same_iff : ∀ s t : Ty, s.same t = true ↔ s = t
  | .vec s, t | .ref s, t | .refMut s, t | .atomic s, t | .mutex s, t | .guard s, t | .deque s, t
  | .hashSet s, t | .bTreeSet s, t | .binaryHeap s, t | .bst s, t => by
    cases t <;> simp [Ty.same, Ty.same_iff s]
  | .array s n, t | .channel s n, t => by cases t <;> simp [Ty.same, Ty.same_iff s]
  | .hashMap k s, t | .bTreeMap k s, t => by
    cases t <;> simp [Ty.same, Ty.same_iff k, Ty.same_iff s]
  | .fnPtr ss s, t => by cases t <;> simp [Ty.same, sameTypes_iff ss, Ty.same_iff s]
  | .tuple ss, t | .apply _ ss, t => by cases t <;> simp [Ty.same, sameTypes_iff ss]
  | .int _, t | .float _, t | .struct _, t | .enum _, t | .param _, t | .object _, t => by
    cases t <;> simp [Ty.same]
  | .bool, t | .str, t | .ownedStr, t | .task, t | .condvar, t | .unionFind, t | .bloomFilter, t
  | .graph, t | .trie, t | .skipList, t => by cases t <;> simp [Ty.same]

theorem sameTypes_iff : ∀ ss ts : List Ty, sameTypes ss ts = true ↔ ss = ts
  | [], ts => by cases ts <;> simp [sameTypes]
  | s :: ss, ts => by cases ts <;> simp [sameTypes, Ty.same_iff s, sameTypes_iff ss]

end

instance : DecidableEq Ty := fun s t => decidable_of_iff _ (Ty.same_iff s t)

end Vani.Program
