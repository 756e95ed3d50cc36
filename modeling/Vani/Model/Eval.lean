import Vani.Model.Value

/-!
# Evaluation of expressions

Big-step evaluation of source expressions, operands left to right. Expressions can
write: a block expression assigns, a call hands `mut ref` arguments to its callee. So
an evaluation yields a value, a store, and the list of the names it assigned; `"@"` in
that list stands for the world outside the store.

Most constructs evaluate all their operands and then compute on the values. They are
gathered behind `operands`, so that evaluation has one rule for them.
-/

set_option autoImplicit false

namespace Vani.Model

open Vani.Program

/-- The name under which effects on the world outside the store are logged. -/
def worldName : String := "@"

/-- The nominal types of the program, which constructor syntax refers to.
Source: checker.rs:13-21 -/
structure Nominal where
  isEnum : String → Bool
  isStruct : String → Bool

/-- Constructs that evaluate every operand and compute on the values. `push`, `set` and
the two equations are the calls of those names. -/
inductive StrictOp
  | unary (op : UnaryOp)
  | binary (op : BinaryOp)
  | cast (ty : Ty)
  | arrayLit
  | index
  | len
  | ref
  | tuple
  | tupleAccess (index : Nat)
  | structLit (typeName : String) (fields : List String)
  | fieldAccess (field : String)
  | construct (enumName variant : String)
  | push
  | set
  | storeEq
  | arrayEq

/-- Whether an argument is written `mut ref e`. -/
def isRefMut : Expr → Bool
  | .refMut _ => true
  | _ => false

/-- Whether the first argument is written `mut ref e`. -/
def headRefMut : List Expr → Bool
  | [] => false
  | e :: _ => isRefMut e

/-- The builtins whose results the verifier records facts about, in their by-value
forms, and the two equations it writes as calls.
Source: checker.rs:23981-24192, 8580-8600 -/
def builtinOp (name : String) (args : List Expr) : Option StrictOp :=
  if name = "vec" then some .arrayLit
  else if name = "clone" ∧ args.length = 1 then some .ref
  else if name = "push" ∧ args.length = 2 ∧ headRefMut args = false then some .push
  else if name = "set" ∧ args.length = 3 ∧ headRefMut args = false then some .set
  else if name = "__smt_store_eq" ∧ args.length = 4 then some .storeEq
  else if name = "__smt_array_eq" ∧ args.length = 2 then some .arrayEq
  else none

/-- The operands of a strict construct. -/
def operands (T : Nominal) : Expr → Option (StrictOp × List Expr)
  | .unary op e => some (.unary op, [e])
  | .binary op l r => if op = .and ∨ op = .or then none else some (.binary op, [l, r])
  | .cast e ty => some (.cast ty, [e])
  | .arrayLit es => some (.arrayLit, es)
  | .index a i => some (.index, [a, i])
  | .len a => some (.len, [a])
  | .ref e => some (.ref, [e])
  | .refMut e => some (.ref, [e])
  | .tuple es => some (.tuple, es)
  | .tupleAccess e i => some (.tupleAccess i, [e])
  | .structLit n fs => some (.structLit n (fs.map Prod.fst), fs.map Prod.snd)
  | .fieldAccess (.var n) f =>
    if T.isEnum n then some (.construct n f, []) else some (.fieldAccess f, [.var n])
  | .fieldAccess e f => some (.fieldAccess f, [e])
  | .methodCall (.var n) m args =>
    if T.isEnum n then some (.construct n m, args) else none
  | .call n args => (builtinOp n args).map fun op => (op, args)
  | _ => none

/-- The call a method call stands for: the receiver becomes the first argument, by
`mut ref` where the method takes it so; on a type name it is the type's own function.
Source: checker.rs:10890-11490 -/
def asCall {W : Type} (P : Prims W) (T : Nominal) : Expr → Option (String × List Expr)
  | .call n args => match builtinOp n args with
    | some _ => none
    | none => some (n, args)
  | .methodCall (.var n) m args =>
    if T.isEnum n then none
    else if T.isStruct n then some (n ++ "_" ++ m, args)
    else some (m, (if P.mutRecv m then .refMut (.var n) else .var n) :: args)
  | .methodCall e m args => some (m, (if P.mutRecv m then .refMut e else e) :: args)
  | _ => none

/-- Compute a strict construct on the values of its operands. -/
def StrictOp.apply {W : Type} (P : Prims W) : StrictOp → List Value → Option Value
  | .unary op, [v] => P.runUnary op v
  | .binary op, [a, b] => P.runBinary op a b
  | .cast ty, [v] => P.runCast ty v
  | .arrayLit, vs => some (.seq (vs.map Value.settle))
  | .index, [.seq vs, .scalar (.int _ _ k)] => if 0 ≤ k then vs[k.toNat]? else none
  | .len, [.seq vs] => some (.scalar (.int .u64 false vs.length))
  | .len, [.str s] => some (.scalar (.int .u64 false s.utf8ByteSize))
  | .ref, [v] => some v
  | .tuple, vs => some (.tuple (vs.map Value.settle))
  | .tupleAccess i, [.tuple vs] => vs[i]?
  | .structLit n fs, vs => some (.struct n (fs.zip (vs.map Value.settle)))
  | .fieldAccess f, [.struct _ fs] => fs.lookup f
  | .construct n variant, vs => some (.enum n variant (vs.map Value.settle))
  | .push, [.seq vs, v] => some (.seq (vs ++ [v.settle]))
  | .set, [.seq vs, .scalar (.int _ _ k), v] =>
    if 0 ≤ k ∧ k < vs.length then some (.seq (vs.set k.toNat v.settle)) else none
  | .storeEq, [.seq new, .seq old, .scalar (.int _ _ k), v] =>
    some (.scalar (.bool (Value.isStore new old k v)))
  | .arrayEq, [a, b] => some (.scalar (.bool (Value.same a b)))
  | _, _ => none

theorem StrictOp.apply_binary {W : Type} (P : Prims W) (op : BinaryOp) (a b : Value) :
    StrictOp.apply P (.binary op) [a, b] = P.runBinary op a b := rfl

/-- What a `mut ref` argument refers to: a variable or a field of one.
Source: checker.rs:12560-12684 -/
def place : Expr → Option (String × Option String)
  | .var n => some (n, none)
  | .fieldAccess (.var n) f => some (n, some f)
  | _ => none

/-- The places a call's arguments lend to the callee. -/
def mutTargets : List Expr → List (String × Option String)
  | [] => []
  | .refMut e :: rest => match place e with
    | some p => p :: mutTargets rest
    | none => mutTargets rest
  | _ :: rest => mutTargets rest

/-- Replace the value of a field. -/
def setField : List (String × Value) → String → Value → List (String × Value)
  | [], _, _ => []
  | (f, x) :: rest, g, v => if f = g then (f, v) :: rest else (f, x) :: setField rest g v

/-- The new value of a binding after a write to a place in it. -/
def placeUpdate (old : Value) (field : Option String) (v : Value) : Value :=
  match field, old with
  | none, _ => v
  | some f, .struct n fs => .struct n (setField fs f v)
  | some _, old => old

/-- Store what a callee left in its `mut ref` arguments. -/
def writeBack {W : Type} : List (String × Option String) → List Value → Store W →
    Option (Store W)
  | [], [], σ => some σ
  | (n, f) :: ps, v :: vs, σ => match lookupScopes σ.scopes n with
    | some old => writeBack ps vs (σ.assign n (placeUpdate old f v))
    | none => none
  | _, _, _ => none

/-- Bind a list of names in the innermost scope. -/
def declareAll {W : Type} : List (String × Value) → Store W → Store W
  | [], σ => σ
  | (n, v) :: rest, σ => declareAll rest (σ.declare n v)

/-- Whether a value fits a pattern, and what it binds. Source: ast.rs:1421-1461 -/
def matchPattern : Pattern → Value → Option (List (String × Value))
  | .wildcard, _ => some []
  | .int k, .scalar (.int _ _ v) => if v = k then some [] else none
  | .bool b, .scalar (.bool v) => if v = b then some [] else none
  | .str s, .str t => if s = t then some [] else none
  | .float b, .scalar (.float _ _ v) => if Value.ieeeEq v b then some [] else none
  | .variant _ v, .enum _ v' _ => if v = v' then some [] else none
  | .variantWithBinding _ v x, .enum _ v' [p] => if v = v' then some [(x, p)] else none
  | _, _ => none

/-- The first arm whose pattern the value fits. -/
def selectArm : List (Pattern × Expr) → Value → Option (List (String × Value) × Expr)
  | [], _ => none
  | (p, e) :: rest, v => match matchPattern p v with
    | some bs => some (bs, e)
    | none => selectArm rest v

/-- Conversion on binding: to the annotated type, or only out of the flexible state.
Source: checker.rs:21846-22077 -/
def coerce {W : Type} (P : Prims W) : Option Ty → Value → Option Value
  | none, v => some v.settle
  | some (.array t _), .seq vs => (vs.mapM (fun v => coerceElement P t v)).map Value.seq
  | some (.vec t), .seq vs => (vs.mapM (fun v => coerceElement P t v)).map Value.seq
  | some (.int t), .scalar s => (P.runCast (.int t) (.scalar s)).map Value.settle
  | some (.float t), .scalar s => (P.runCast (.float t) (.scalar s)).map Value.settle
  | some _, v => some v.settle
where
  /-- One element of an array literal. -/
  coerceElement (P : Prims W) (t : Ty) (v : Value) : Option Value :=
    match t, v with
    | .int t, .scalar s => (P.runCast (.int t) (.scalar s)).map Value.settle
    | .float t, .scalar s => (P.runCast (.float t) (.scalar s)).map Value.settle
    | _, v => some v.settle

/-- Conversion on assignment, to the type of the value the binding holds. -/
def coerceLike {W : Type} (P : Prims W) (old v : Value) : Option Value :=
  match old with
  | .scalar (.int t _ _) => coerce P (some (.int t)) v
  | .scalar (.float t _ _) => coerce P (some (.float t)) v
  | _ => some v.settle

/-- The expressions among the items of a `print`. -/
def printExprs : List PrintItem → List Expr
  | [] => []
  | .expr e :: rest => e :: printExprs rest
  | .str _ :: rest => printExprs rest

/-- A literal's value. Source: checker.rs:10337-10380 -/
def literal : Expr → Option Value
  | .int v => some (.scalar (.int (if v ≤ IntTy.maxValue .i64 then .i64 else .u64) true v))
  | .float b => some (.scalar (.float .f64 true b))
  | .bool b => some (.scalar (.bool b))
  | .str s => some (.str s)
  | _ => none

/-- The statements a `while` inside a block expression may hold: assignments and prints.
Source: checker.rs:12325-12395 -/
def onlyWrites : List Stmt → Bool
  | [] => true
  | .assign _ _ :: ss => onlyWrites ss
  | .print _ :: ss => onlyWrites ss
  | _ => false

/-- Whether the left operand settles a short-circuit operator. -/
def decides (op : BinaryOp) (b : Bool) : Bool :=
  match op with
  | .and => !b
  | .or => b
  | _ => false

/-- What is evaluated: an expression, an operand list, or the statements of a block
expression. -/
inductive Code
  | expr (e : Expr)
  | args (es : List Expr)
  | stmts (ss : List Stmt)

/-- What it evaluates to. -/
inductive Result
  | val (v : Value)
  | vals (vs : List Value)
  | done

variable {W : Type}

/-- `Eval P T c σ r σ' w`: evaluating `c` in `σ` gives `r` and leaves `σ'`; `w` lists the
names it assigned. Blocks admit `let`, assignment, `print` and `while`, as the checker
does. Source: checker.rs:10331-12558 -/
inductive Eval (P : Prims W) (T : Nominal) :
    Code → Store W → Result → Store W → List String → Prop
  | literal {e v σ} : literal e = some v → Eval P T (.expr e) σ (.val v) σ []
  | var {n v σ} : σ.lookup n = some v → Eval P T (.expr (.var n)) σ (.val v) σ []
  | strict {e op es vs v σ σ' w} : operands T e = some (op, es) →
      Eval P T (.args es) σ (.vals vs) σ' w → op.apply P vs = some v →
      Eval P T (.expr e) σ (.val v) σ' w
  | short {op l r b σ σ' w} : Eval P T (.expr l) σ (.val (.scalar (.bool b))) σ' w →
      op = .and ∨ op = .or → decides op b = true →
      Eval P T (.expr (.binary op l r)) σ (.val (.scalar (.bool b))) σ' w
  | long {op l r b b' σ σ' σ'' w w'} :
      Eval P T (.expr l) σ (.val (.scalar (.bool b))) σ' w →
      op = .and ∨ op = .or → decides op b = false →
      Eval P T (.expr r) σ' (.val (.scalar (.bool b'))) σ'' w' →
      Eval P T (.expr (.binary op l r)) σ (.val (.scalar (.bool b'))) σ'' (w ++ w')
  | pureCall {e n args vs v outs σ σ' σ'' w} : asCall P T e = some (n, args) →
      P.isPure n = true → Eval P T (.args args) σ (.vals vs) σ' w →
      P.pureCall n vs = some (v, outs) → writeBack (mutTargets args) outs σ' = some σ'' →
      Eval P T (.expr e) σ (.val v) σ'' (w ++ (mutTargets args).map Prod.fst)
  | call {e n args vs v outs x σ σ' σ'' w} : asCall P T e = some (n, args) →
      P.isPure n = false → Eval P T (.args args) σ (.vals vs) σ' w →
      P.call (match σ'.lookup n with | some (.fn g) => g | _ => n) vs σ'.world
        = some (v, outs, x) →
      writeBack (mutTargets args) outs { σ' with world := x } = some σ'' →
      Eval P T (.expr e) σ (.val v) σ''
        (w ++ worldName :: (mutTargets args).map Prod.fst)
  | ifExpr {c t f b v σ σ' σ'' w w'} :
      Eval P T (.expr c) σ (.val (.scalar (.bool b))) σ' w →
      Eval P T (.expr (if b then t else f)) σ' (.val v) σ'' w' →
      Eval P T (.expr (.ifExpr c t f)) σ (.val v.settle) σ'' (w ++ w')
  | match_ {s arms bs body u v σ σ' σ'' w w'} :
      Eval P T (.expr s) σ (.val u) σ' w → selectArm arms u = some (bs, body) →
      Eval P T (.expr body) (declareAll bs σ'.push) (.val v) σ'' w' →
      Eval P T (.expr (.match_ s arms)) σ (.val v.settle) σ''.pop (w ++ w')
  | block {ss tail v σ σ' σ'' w w'} :
      Eval P T (.stmts ss) σ.push .done σ' w → Eval P T (.expr tail) σ' (.val v) σ'' w' →
      Eval P T (.expr (.block ss tail)) σ (.val v.settle) σ''.pop (w ++ w')
  | argsNil {σ} : Eval P T (.args []) σ (.vals []) σ []
  | argsCons {e es v vs σ σ' σ'' w w'} :
      Eval P T (.expr e) σ (.val v) σ' w → Eval P T (.args es) σ' (.vals vs) σ'' w' →
      Eval P T (.args (e :: es)) σ (.vals (v :: vs)) σ'' (w ++ w')
  | stmtsNil {σ} : Eval P T (.stmts []) σ .done σ []
  | let_ {n ann e ss v v' σ σ' σ'' w w'} : n ≠ "_" →
      Eval P T (.expr e) σ (.val v) σ' w → coerce P ann v = some v' →
      Eval P T (.stmts ss) (σ'.declare n v') .done σ'' w' →
      Eval P T (.stmts (.let_ n ann e :: ss)) σ .done σ'' (w ++ w')
  | discard {ann e ss v σ σ' σ'' w w'} : Eval P T (.expr e) σ (.val v) σ' w →
      Eval P T (.stmts ss) σ' .done σ'' w' →
      Eval P T (.stmts (.let_ "_" ann e :: ss)) σ .done σ'' (w ++ w')
  | assign {n e ss old v v' σ σ' σ'' w w'} : Eval P T (.expr e) σ (.val v) σ' w →
      lookupScopes σ'.scopes n = some old → coerceLike P old v = some v' →
      Eval P T (.stmts ss) (σ'.assign n v') .done σ'' w' →
      Eval P T (.stmts (.assign n e :: ss)) σ .done σ'' (w ++ n :: w')
  | print {items ss vs σ σ' σ'' w w'} :
      Eval P T (.args (printExprs items)) σ (.vals vs) σ' w →
      Eval P T (.stmts ss) σ' .done σ'' w' →
      Eval P T (.stmts (.print items :: ss)) σ .done σ'' (w ++ w')
  | whileFalse {c invs body ss σ σ' σ'' w w'} :
      Eval P T (.expr c) σ (.val (.scalar (.bool false))) σ' w →
      Eval P T (.stmts ss) σ' .done σ'' w' →
      Eval P T (.stmts (.while_ c invs body :: ss)) σ .done σ'' (w ++ w')
  | whileTrue {c invs body ss σ σ' σ'' σ₃ w w' w''} : onlyWrites body = true →
      Eval P T (.expr c) σ (.val (.scalar (.bool true))) σ' w →
      Eval P T (.stmts body) σ' .done σ'' w' →
      Eval P T (.stmts (.while_ c invs body :: ss)) σ'' .done σ₃ w'' →
      Eval P T (.stmts (.while_ c invs body :: ss)) σ .done σ₃ (w ++ (w' ++ w''))

end Vani.Model
