import Vani.Program.Ast

/-!
# The typed program

`src/ir.rs` without its spans: what the checker hands to the backends. An expression
carries its type; the constants the checker attached play no part after checking and are
left out. Every analysis of a checked body (purity, parallel loops) and every backend
walks these trees.
-/

set_option autoImplicit false

namespace Vani.Program

/-- Source: ir.rs:4-11 -/
structure TypedReduction where
  var : String
  op : ReductionOp
  ty : Ty

mutual

/-- An expression kind with its type. Source: ir.rs:254-271 -/
inductive TypedExpr
  | mk (kind : TypedExprKind) (ty : Ty)

/-- Source: ir.rs:273-486 -/
inductive TypedExprKind
  | int (value : Int)
  | float (bits : Nat)
  | bool (value : Bool)
  | str (text : String)
  | var (name : String)
  | unary (op : UnaryOp) (expr : TypedExpr)
  | binary (op : BinaryOp) (left right : TypedExpr) (checked : Bool)
  | call (name : String) (args : List TypedExpr)
  | cast (expr : TypedExpr) (ty : Ty)
  | arrayLit (elements : List TypedExpr)
  | index (array index : TypedExpr) (checked : Bool)
  | len (array : TypedExpr) (length : Nat)
  | ref (name : String)
  | refMut (name : String)
  | refField (object field : String)
  | refMutField (object field : String)
  | fnRef (name : String)
  | callIndirect (callee : TypedExpr) (args : List TypedExpr)
  | tuple (elements : List TypedExpr)
  | tupleAccess (tuple : TypedExpr) (index : Nat)
  | structLit (typeName : String) (fields : List (String × TypedExpr))
  | fieldAccess (object : TypedExpr) (field : String)
  | enumVariant (enumName variant : String) (tag : Nat)
  | enumVariantWithPayload (enumName variant : String) (tag : Nat) (payload : TypedExpr)
  | match_ (scrutinee : TypedExpr) (arms : List TypedMatchArm)
  | ifExpr (cond thenValue elseValue : TypedExpr)
  | dynCoerce (value : TypedExpr) (ifaceName fromTypeName : String)
  | dynDispatch (receiver : TypedExpr) (ifaceName method : String) (slot : Nat)
      (args : List TypedExpr)
  | block (stmts : List TypedStmt) (tail : TypedExpr)

/-- Source: ir.rs:488-516 -/
inductive TypedMatchArm
  | mk (tag : Nat) (isWildcard : Bool) (intValue : Option Int) (binding : Option (String × Ty))
      (body : TypedExpr)

/-- Source: ir.rs:93-97 -/
inductive TypedPrintItem
  | expr (e : TypedExpr)
  | str (text : String)

/-- Source: ir.rs:99-252 -/
inductive TypedStmt
  | let_ (name : String) (ty : Ty) (expr : TypedExpr)
  | reassign (name : String) (ty : Ty) (expr : TypedExpr) (dropOld : Bool)
  | drop (name : String) (ty : Ty) (movedFields : List String)
  | discard (expr : TypedExpr)
  | return_ (expr : TypedExpr)
  | assert (expr : TypedExpr) (message : Option String)
  | prove (expr : TypedExpr)
  | print (items : List TypedPrintItem)
  | if_ (cond : TypedExpr) (thenBody elseBody : List TypedStmt)
  | while_ (cond : TypedExpr) (body : List TypedStmt)
  | break_
  | continue_
  | indexAssign (name : String) (baseTy : Ty) (index : TypedExpr) (fieldPath : List String)
      (value : TypedExpr) (checked : Bool)
  | fieldAssign (object : TypedExpr) (field : String) (throughMutRef : Bool) (value : TypedExpr)
  | for_ (var : String) (ty : Ty) (start end_ : TypedExpr) (body : List TypedStmt)
      (parallel : Bool) (reductions : List TypedReduction)
  | forIter (var : String) (elementTy : Ty) (collection : String) (collectionTy : Ty)
      (consumes : Bool) (body : List TypedStmt)
  | taskSpawn (name : String) (body : List TypedStmt) (captures : List (String × Ty))
  | taskJoin (name : String)

end

namespace TypedExpr

def kind : TypedExpr → TypedExprKind
  | mk k _ => k

def ty : TypedExpr → Ty
  | mk _ t => t

end TypedExpr

namespace TypedMatchArm

def binding : TypedMatchArm → Option (String × Ty)
  | mk _ _ _ b _ => b

def body : TypedMatchArm → TypedExpr
  | mk _ _ _ _ e => e

end TypedMatchArm

/-- Source: ir.rs:47-83 -/
structure TypedFunction where
  name : String
  params : List Param
  returnType : Ty
  body : List TypedStmt
  isPure : Bool
  isExtern : Bool

end Vani.Program
