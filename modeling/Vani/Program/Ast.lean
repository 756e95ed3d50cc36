import Mathlib.Data.List.Basic

/-!
# The abstract syntax tree

`src/ast.rs` without its source spans. `ExprKind` and its wrapper `Expr` are one
type here, since the wrapper adds nothing but the span. Floats are kept as the bit
pattern of the `f64`. Everything downstream (the fact list, constant tracking,
module flattening) walks these trees.
-/

set_option autoImplicit false

namespace Vani.Program

/-- The eight integer types. Source: ast.rs:589-596 -/
inductive IntTy
  | i8
  | i16
  | i32
  | i64
  | u8
  | u16
  | u32
  | u64
  deriving DecidableEq

namespace IntTy

/-- Source: ast.rs:817-819 (`is_signed_integer`) -/
def isSigned : IntTy → Bool
  | i8 | i16 | i32 | i64 => true
  | u8 | u16 | u32 | u64 => false

/-- Source: ast.rs:903-911 -/
def bits : IntTy → Nat
  | i8 | u8 => 8
  | i16 | u16 => 16
  | i32 | u32 => 32
  | i64 | u64 => 64

/-- Source: ast.rs:913-922 -/
def minValue : IntTy → Int
  | i8 => -128
  | i16 => -32768
  | i32 => -2147483648
  | i64 => -9223372036854775808
  | u8 | u16 | u32 | u64 => 0

/-- Source: ast.rs:924-937 -/
def maxValue : IntTy → Int
  | i8 => 127
  | i16 => 32767
  | i32 => 2147483647
  | i64 => 9223372036854775807
  | u8 => 255
  | u16 => 65535
  | u32 => 4294967295
  | u64 => 18446744073709551615

end IntTy

/-- Source: ast.rs:597-598 -/
inductive FloatTy
  | f32
  | f64
  deriving DecidableEq

/-- The types of the language; the integer and the float types are grouped.
Source: ast.rs:588-797 -/
inductive Ty
  | int (t : IntTy)
  | float (t : FloatTy)
  | bool
  | str
  | ownedStr
  | array (element : Ty) (length : Nat)
  | vec (element : Ty)
  | tuple (elements : List Ty)
  | struct (name : String)
  | enum (name : String)
  | apply (name : String) (args : List Ty)
  | param (name : String)
  | ref (inner : Ty)
  | refMut (inner : Ty)
  | task
  | atomic (inner : Ty)
  | channel (inner : Ty) (capacity : Nat)
  | mutex (inner : Ty)
  | guard (inner : Ty)
  | fnPtr (params : List Ty) (ret : Ty)
  | object (iface : String)
  | condvar
  | deque (inner : Ty)
  | hashSet (inner : Ty)
  | hashMap (key value : Ty)
  | bTreeSet (inner : Ty)
  | bTreeMap (key value : Ty)
  | unionFind
  | binaryHeap (inner : Ty)
  | bloomFilter
  | bst (inner : Ty)
  | graph
  | trie
  | skipList

namespace Ty

/-- Strip the outer reference wrappers. Source: ast.rs:854-859 -/
def deref : Ty → Ty
  | ref inner | refMut inner => inner.deref
  | t => t

/-- `Type::Vec(_) | Type::Array { .. }`, the types with an SMT array behind them. -/
def isSequence : Ty → Bool
  | array _ _ | vec _ => true
  | _ => false

end Ty

/-- Source: ast.rs:1463-1467 -/
inductive UnaryOp
  | neg
  | not
  deriving DecidableEq

/-- Source: ast.rs:1469-1489 -/
inductive BinaryOp
  | add
  | sub
  | mul
  | div
  | rem
  | shl
  | shr
  | bitAnd
  | bitOr
  | bitXor
  | eq
  | ne
  | lt
  | le
  | gt
  | ge
  | and
  | or
  deriving DecidableEq

/-- Source: ast.rs:1042-1053 -/
inductive ReductionOp
  | add
  | mul
  | and
  | or
  | bitAnd
  | bitOr
  | bitXor
  | min
  | max
  deriving DecidableEq

/-- A `reduce <var> with <op>;` clause. Source: ast.rs:1078-1083 -/
structure Reduction where
  var : String
  op : ReductionOp
  deriving DecidableEq

/-- Match-arm patterns. Source: ast.rs:1421-1461 -/
inductive Pattern
  | variant (enumName variant : String)
  | variantWithBinding (enumName variant binding : String)
  | int (value : Int)
  | bool (value : Bool)
  | str (text : String)
  | float (bits : Nat)
  | wildcard
  deriving DecidableEq

/-- A function parameter. Source: ast.rs:575-586 -/
structure Param where
  name : String
  ty : Ty

mutual

/-- Source: ast.rs:1262-1402 -/
inductive Expr
  | int (value : Int)
  | float (bits : Nat)
  | bool (value : Bool)
  | str (text : String)
  | var (name : String)
  | unary (op : UnaryOp) (expr : Expr)
  | binary (op : BinaryOp) (left right : Expr)
  | call (name : String) (args : List Expr)
  | methodCall (receiver : Expr) (method : String) (args : List Expr)
  | cast (expr : Expr) (ty : Ty)
  | arrayLit (elements : List Expr)
  | index (array index : Expr)
  | len (array : Expr)
  | ref (inner : Expr)
  | refMut (inner : Expr)
  | tuple (elements : List Expr)
  | tupleAccess (tuple : Expr) (index : Nat)
  | structLit (typeName : String) (fields : List (String × Expr))
  | fieldAccess (object : Expr) (field : String)
  | match_ (scrutinee : Expr) (arms : List (Pattern × Expr))
  | ifExpr (cond thenValue elseValue : Expr)
  | block (stmts : List Stmt) (tail : Expr)
  | try_ (inner : Expr)
  | anonFn (params : List Param) (returnType : Ty) (body : List Stmt)

/-- One item of a `print` statement. Source: ast.rs:1029-1034 -/
inductive PrintItem
  | expr (e : Expr)
  | str (text : String)

/-- Source: ast.rs:1085-1230 -/
inductive Stmt
  | let_ (name : String) (ann : Option Ty) (expr : Expr)
  | letTuple (names : List String) (ann : Option Ty) (expr : Expr)
  | return_ (expr : Expr)
  | assert (expr : Expr) (message : Option String)
  | prove (expr : Expr)
  | print (items : List PrintItem)
  | if_ (cond : Expr) (thenBody elseBody : List Stmt)
  | while_ (cond : Expr) (invariants : List Expr) (body : List Stmt)
  | assign (name : String) (expr : Expr)
  | break_
  | continue_
  | indexAssign (name : String) (index : Expr) (fieldPath : List String) (value : Expr)
  | fieldAssign (object : Expr) (field : String) (value : Expr)
  | for_ (var : String) (start end_ : Expr) (invariants : List Expr) (body : List Stmt)
      (parallel : Bool) (reductions : List Reduction)
  | forIter (var collection : String) (consumes : Bool) (body : List Stmt)
  | taskSpawn (name : String) (body : List Stmt)
  | taskJoin (name : String)

end

/-- The part of a function declaration the contract checks read.
Source: ast.rs:532-573 -/
structure Function where
  name : String
  params : List Param
  returnType : Ty
  requires : List Expr
  ensures : List Expr
  body : List Stmt
  isPure : Bool

end Vani.Program
