import Vani.Program.Ast
import Vani.Program.Ir

/-!
# The SSA form

`src/ssa.rs`: a function is a graph of basic blocks with parameters; instructions name
their results, and a block ends in a terminator that passes arguments to the blocks it
leads to. The parameters of a function are those of its entry block. Spans, return types and
recursion bounds are left out: no pass reads them.
-/

set_option autoImplicit false

namespace Vani.Program.Ssa

/-- Source: ssa.rs:41 -/
abbrev ValueId := Nat

/-- Source: ssa.rs:45 -/
abbrev BlockId := Nat

/-- A constant; floats are kept as the bit pattern of the `f64`. Source: ssa.rs:51-55 -/
inductive Const
  | int (value : Int)
  | bool (value : Bool)
  | float (bits : Nat)
  deriving DecidableEq

/-- Source: ssa.rs:72-75 -/
inductive Operand
  | value (v : ValueId)
  | const (c : Const)
  deriving DecidableEq

/-- Source: ssa.rs:206-237 -/
structure ParallelForShape where
  counterName : String
  counterHeaderValue : ValueId
  counterTy : Ty
  start : Operand
  stop : Operand
  headerBlock : BlockId
  bodyBlock : BlockId
  stepBlock : BlockId
  exitBlock : BlockId

/-- Source: ssa.rs:167-195 -/
inductive HintKind
  | parallelForBegin (reductions : List (String × ReductionOp × Ty)) (shape : ParallelForShape)
  | parallelForEnd
  | taskBegin (handle : String)
  | taskEnd (handle : String)
  | taskJoin (handle : String)

/-- Source: ssa.rs:89-162 -/
inductive InstrKind
  | const (c : Const)
  | unary (op : UnaryOp) (x : Operand)
  | binary (op : BinaryOp) (l r : Operand)
  | call (name : String) (args : List Operand)
  | fnRef (name : String)
  | callIndirect (callee : Operand) (args : List Operand)
  | cast (x : Operand) (target : Ty)
  | strLit (text : String)
  | arrayLit (elements : List Operand)
  | index (array index : Operand) (checked : Bool)
  | len (array : Operand) (length : Nat)
  | refOf (source : Operand) (isMut : Bool)
  | indexAssign (array : Operand) (baseTy : Ty) (index value : Operand) (checked : Bool)
  | drop (source : Operand) (name : String) (ty : Ty)
  | hint (kind : HintKind)

/-- Source: ssa.rs:240-245 -/
structure Instruction where
  result : ValueId
  kind : InstrKind
  ty : Ty

/-- Source: ssa.rs:347-367 -/
inductive Terminator
  | ret (x : Option Operand)
  | jump (target : BlockId) (args : List Operand)
  | branch (cond : Operand) (thenBlock : BlockId) (thenArgs : List Operand)
      (elseBlock : BlockId) (elseArgs : List Operand)
  | unreachable

/-- Source: ssa.rs:408-418 -/
structure BasicBlock where
  id : BlockId
  params : List (ValueId × Ty)
  instructions : List Instruction
  terminator : Terminator

/-- Source: ssa.rs:442-460 -/
structure Function where
  name : String
  entry : BlockId
  blocks : List BasicBlock
  isExtern : Bool

/-- Source: ssa.rs:479-481 -/
structure Module where
  functions : List Function

end Vani.Program.Ssa

/-!
## Bindings that a loop carries

Before the lowering builds the blocks of a loop, a walk over the body collects the names it
assigns, and each that has a value before the loop becomes a parameter of the blocks. The walk
goes through the statements in the order of the text. It takes every name that a `let` has
declared so far for a binding of the body, and it does not go into expressions.
-/

namespace Vani.Program

/-- The names declared and the names collected so far, as lists without repetition. -/
structure Modified where
  inner : List String
  out : List String

/-- An assignment to a name. Source: ssa.rs:1357-1359, 1364-1366 -/
def Modified.assign (m : Modified) (name : String) : Modified :=
  if name ∈ m.inner then m else { m with out := m.out.insert name }

mutual

/-- Source: ssa.rs:1348-1405 -/
def walkModified : TypedStmt → Modified → Modified
  | .let_ name _ _, m => { m with inner := m.inner.insert name }
  | .reassign name _ _ _, m | .indexAssign name _ _ _ _ _, m => m.assign name
  | .if_ _ thenBody elseBody, m => walkModifiedAll elseBody (walkModifiedAll thenBody m)
  | .while_ _ body, m | .for_ _ _ _ _ body _ _, m | .forIter _ _ _ _ _ body, m
  | .taskSpawn _ body _, m => walkModifiedAll body m
  | _, m => m

def walkModifiedAll : List TypedStmt → Modified → Modified
  | [], m => m
  | s :: ss, m => walkModifiedAll ss (walkModified s m)

end

/-- Source: ssa.rs:1344-1414 -/
def modifiedInBody (body : List TypedStmt) : List String := (walkModifiedAll body ⟨[], []⟩).out

/-- The bindings that a `while` carries, with the values the entry passes for them.
Source: ssa.rs:1426-1443, 1456-1460 -/
def carriedBindings (locals : String → Option Ssa.ValueId) (body : List TypedStmt) :
    List (String × Ssa.ValueId) :=
  (modifiedInBody body).filterMap fun name => (locals name).map fun v => (name, v)

end Vani.Program
