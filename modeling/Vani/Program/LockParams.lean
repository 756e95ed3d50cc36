import Vani.Program.Ast
import Vani.Library.Outcome
import Mathlib.Logic.Function.Basic

/-!
# Parameters that are locked

For every function the checker keeps one bit per parameter: whether a call of it may lock
the mutex passed there. A first walk over the body sets the bits of the parameters it locks
itself, passes over all functions then add those it hands on to be locked. Both walks come
to the same calls of a body and look at the same forms of arguments.
-/

set_option autoImplicit false

namespace Vani.Program

open Vani.Library

/-- The mutex an argument names. Source: checker.rs:15400-15409 -/
def lockedName : Expr → Option String
  | .ref (.var name) | .refMut (.var name) | .var name => some name
  | _ => none

mutual

/-- The calls the walks come to in an expression, with their arguments.
Source: checker.rs:1204-1255, 15481-15517 -/
def walkedCalls : Expr → List (String × List Expr)
  | .call name args => (name, args) :: walkedCallsAll args
  | .unary _ e | .cast e _ | .len e | .ref e | .refMut e => walkedCalls e
  | .binary _ a b | .index a b => walkedCalls a ++ walkedCalls b
  | .arrayLit elements => walkedCallsAll elements
  | _ => []

def walkedCallsAll : List Expr → List (String × List Expr)
  | [] => []
  | e :: es => walkedCalls e ++ walkedCallsAll es

end

/-- Source: checker.rs:1173-1179, 15448-15454 -/
def walkedItems : List PrintItem → List (String × List Expr)
  | [] => []
  | .expr e :: items => walkedCalls e ++ walkedItems items
  | .str _ :: items => walkedItems items

mutual

/-- The calls the walks come to in a statement. Source: checker.rs:1151-1203, 15433-15478 -/
def walkedStmt : Stmt → List (String × List Expr)
  | .let_ _ _ e | .letTuple _ _ e | .return_ e | .assert e _ | .prove e | .assign _ e =>
    walkedCalls e
  | .indexAssign _ index _ value => walkedCalls index ++ walkedCalls value
  | .fieldAssign object _ value => walkedCalls object ++ walkedCalls value
  | .print items => walkedItems items
  | .if_ cond thenBody elseBody =>
    walkedCalls cond ++ walkedStmts thenBody ++ walkedStmts elseBody
  | .while_ cond invariants body =>
    walkedCalls cond ++ walkedCallsAll invariants ++ walkedStmts body
  | .for_ _ start end_ invariants body _ _ =>
    walkedCalls start ++ walkedCalls end_ ++ walkedCallsAll invariants ++ walkedStmts body
  | .forIter _ _ _ body => walkedStmts body
  | .taskSpawn _ body => walkedStmts body
  | .break_ | .continue_ | .taskJoin _ => []

def walkedStmts : List Stmt → List (String × List Expr)
  | [] => []
  | s :: ss => walkedStmt s ++ walkedStmts ss

end

/-- `param_names.iter().position(..)` -/
def paramPosition (names : List String) (name : String) : Option Nat := names.findIdx? (· = name)

/-- Source: checker.rs:1101-1102, 15426 -/
def Function.paramNames (f : Function) : List String := f.params.map Param.name

/-- The caller's parameters that a call hands on where the callee locks.
Source: checker.rs:1212-1223 -/
def lockedParams (names : List String) (calleeLocks : List Bool) (args : List Expr) : List Nat :=
  args.zipIdx.filterMap fun (arg, index) =>
    if calleeLocks[index]? = some true then (lockedName arg).bind (paramPosition names) else none

/-- `locks[idx] = true`, which panics past the end. -/
def setLock (locks : List Bool) (index : Nat) : Outcome (List Bool) :=
  if index < locks.length then pure (locks.set index true) else .aborted

/-- One call of the first walk. Source: checker.rs:15482-15489 -/
def directCall (names : List String) (locks : List Bool) (call : String × List Expr) :
    Outcome (List Bool) :=
  if call.1 = "mutex_lock" ∧ call.2.length = 1 then
    (lockedParams names [true] call.2).foldlM setLock locks
  else pure locks

/-- The parameters a function locks itself. Source: checker.rs:15424-15520 -/
def computeLocksParams (f : Function) : Outcome (List Bool) :=
  (walkedStmts f.body).foldlM (directCall f.paramNames) (List.replicate f.params.length false)

/-- The functions of a program. That no two have one name is checked where the signatures
are collected. Source: checker.rs:1069-1075 -/
structure NamedFunctions where
  functions : List Function
  nodup : (functions.map Function.name).Nodup

/-- The bits of every function that has a signature. -/
abbrev LockTable := String → Option (List Bool)

/-- One call of the second walk. Source: checker.rs:1210-1224 -/
def indirectCall (names : List String) (table : LockTable) (locks : List Bool)
    (call : String × List Expr) : Outcome (List Bool) :=
  match table call.1 with
  | some calleeLocks => (lockedParams names calleeLocks call.2).foldlM setLock locks
  | none => pure locks

/-- Source: checker.rs:1134-1258 -/
def computeIndirectLocks (body : List Stmt) (names : List String) (table : LockTable)
    (existing : List Bool) : Outcome (List Bool) :=
  (walkedStmts body).foldlM (indirectCall names table) existing

/-- One function of a pass: the table, and whether a bit has been set.
Source: checker.rs:1100-1123 -/
def propagateInto (state : LockTable × Bool) (f : Function) : Outcome (LockTable × Bool) :=
  match state.1 f.name with
  | none => .aborted
  | some target => do
    let propagated ← computeIndirectLocks f.body f.paramNames state.1 target
    let locks := List.zipWith (· || ·) target propagated
    pure (Function.update state.1 f.name (some locks), state.2 || decide (locks ≠ target))

/-- One turn of the loop. Source: checker.rs:1098-1126 -/
def propagateTurn (functions : List Function) (table : LockTable) :
    Outcome (LockTable ⊕ LockTable) := do
  let (table, changed) ← functions.foldlM propagateInto (table, false)
  pure (if changed then .inl table else .inr table)

/-- The passes, with a bound on their number. Source: checker.rs:1094-1126 -/
def propagateLocksParams (functions : List Function) (fuel : Nat) (table : LockTable) :
    Outcome LockTable :=
  Outcome.loop (propagateTurn functions) fuel table

/-- The signature of a function, as far as locking goes. Source: checker.rs:1055-1068 -/
def addSignature (table : LockTable) (f : Function) : Outcome LockTable := do
  let locks ← computeLocksParams f
  pure (Function.update table f.name (some locks))

/-- The bits of all functions. Source: checker.rs:1026-1081 -/
def collectLocks (functions : List Function) (fuel : Nat) : Outcome LockTable := do
  let table ← functions.foldlM addSignature fun _ => none
  propagateLocksParams functions fuel table

end Vani.Program
