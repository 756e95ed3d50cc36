import Vani.Program.Ssa
import Vani.Library.CInteger
import Vani.Library.Worklist
import Mathlib.Logic.Function.Basic

/-!
# The SSA passes

`src/ssa_pass.rs`: constant folding, which replaces operands known to be constant and then
the instructions on them, and dead-code elimination, which follows constant branches,
drops the blocks no edge leads to and the instructions nothing uses, until nothing changes.
`none` stands for a panic.
-/

set_option autoImplicit false

namespace Vani.Program.Ssa

open Vani.Library

/-! ## Constant folding -/

/-- The operands that constants may replace. Source: ssa_pass.rs:89-130 -/
def InstrKind.operands : InstrKind → List Operand
  | .unary _ x | .cast x _ | .len x _ => [x]
  | .binary _ l r => [l, r]
  | .call _ args => args
  | .arrayLit elements => elements
  | .index array at_ _ => [array, at_]
  | .indexAssign _ _ at_ value _ => [at_, value]
  | .callIndirect callee args => callee :: args
  | .const _ | .strLit _ | .refOf _ _ | .drop _ _ _ | .hint _ | .fnRef _ => []

/-- A replacement of these operands. Source: ssa_pass.rs:89-130 -/
def InstrKind.mapOperands (g : Operand → Operand) : InstrKind → InstrKind
  | .unary op x => .unary op (g x)
  | .binary op l r => .binary op (g l) (g r)
  | .call name args => .call name (args.map g)
  | .cast x target => .cast (g x) target
  | .arrayLit elements => .arrayLit (elements.map g)
  | .index array at_ isChecked => .index (g array) (g at_) isChecked
  | .len array count => .len (g array) count
  | .indexAssign array baseTy at_ value isChecked =>
    .indexAssign array baseTy (g at_) (g value) isChecked
  | .callIndirect callee args => .callIndirect (g callee) (args.map g)
  | k => k

/-- Source: ssa_pass.rs:134-159 -/
def Terminator.operands : Terminator → List Operand
  | .ret (some x) => [x]
  | .ret none | .unreachable => []
  | .jump _ args => args
  | .branch cond _ thenArgs _ elseArgs => cond :: thenArgs ++ elseArgs

/-- Source: ssa_pass.rs:134-159 -/
def Terminator.mapOperands (g : Operand → Operand) : Terminator → Terminator
  | .ret x => .ret (x.map g)
  | .jump target args => .jump target (args.map g)
  | .branch cond thenBlock thenArgs elseBlock elseArgs =>
    .branch (g cond) thenBlock (thenArgs.map g) elseBlock (elseArgs.map g)
  | .unreachable => .unreachable

/-- The values known to be constant. -/
abbrev ConstEnv := ValueId → Option Const

/-- Source: ssa_pass.rs:161-169 -/
def substOp (env : ConstEnv) : Operand → Operand
  | .value v =>
    match env v with
    | some c => .const c
    | none => .value v
  | .const c => .const c

/-- Whether a constant replaces the operand. Source: ssa_pass.rs:161-169 -/
def isKnown (env : ConstEnv) : Operand → Bool
  | .value v => (env v).isSome
  | .const _ => false

/-- The type the pass computes at. -/
def i128 : IntType := ⟨true, 128⟩

/-- A result that `i128` has. -/
def inI128 (x : Int) : Option Const := if i128.Fits x then some (.int x) else none

/-- Source: ssa_pass.rs:207-239 -/
def foldIntBinary (op : BinaryOp) (a b : Int) : Option Const :=
  match op with
  | .add => inI128 (a + b)
  | .sub => inI128 (a - b)
  | .mul => inI128 (a * b)
  | .div => if b = 0 then none else inI128 (a.tdiv b)
  | .rem =>
    if b = 0 then none
    else if i128.Fits (a.tdiv b) then some (.int (a.tmod b)) else none
  | .bitAnd => some (.int (a.land b))
  | .bitOr => some (.int (a.lor b))
  | .bitXor => some (.int (a.xor b))
  | .shl => if 0 ≤ b ∧ b < 128 then some (.int (i128.wrap (a * 2 ^ b.toNat))) else none
  | .shr => if 0 ≤ b ∧ b < 128 then some (.int (a / 2 ^ b.toNat)) else none
  | .eq => some (.bool (a == b))
  | .ne => some (.bool (a != b))
  | .lt => some (.bool (decide (a < b)))
  | .le => some (.bool (decide (a ≤ b)))
  | .gt => some (.bool (decide (a > b)))
  | .ge => some (.bool (decide (a ≥ b)))
  | .and | .or => none

/-- Source: ssa_pass.rs:241-250 -/
def foldBoolBinary (op : BinaryOp) (a b : Bool) : Option Const :=
  match op with
  | .and => some (.bool (a && b))
  | .or => some (.bool (a || b))
  | .eq => some (.bool (a == b))
  | .ne => some (.bool (a != b))
  | _ => none

/-- Source: ssa_pass.rs:252-258 -/
def foldIntCast (v : Int) : Ty → Option Const
  | .int t => if v < t.minValue ∨ v > t.maxValue then none else some (.int v)
  | _ => none

/-- The sign bit of an `f64` turned over. -/
def negFloat (bits : Nat) : Nat := bits ^^^ 2 ^ 63

/-- Source: ssa_pass.rs:171-205 -/
def tryFold : InstrKind → Option Const
  | .const c => some c
  | .unary .neg (.const (.int v)) => inI128 (-v)
  | .unary .neg (.const (.float bits)) => some (.float (negFloat bits))
  | .unary .not (.const (.bool v)) => some (.bool !v)
  | .binary op (.const (.int a)) (.const (.int b)) => foldIntBinary op a b
  | .binary op (.const (.bool a)) (.const (.bool b)) => foldBoolBinary op a b
  | .cast (.const (.int v)) target => foldIntCast v target
  | _ => none

/-- What the pass carries along: the known constants and the number of replacements. -/
structure FoldState where
  env : ConstEnv
  replacements : Nat

/-- A list rewritten from left to right with a state. -/
def rewriteAll {α σ : Type} (step : σ → α → α × σ) : σ → List α → List α × σ
  | s, [] => ([], s)
  | s, a :: as => ((step s a).1 :: (rewriteAll step (step s a).2 as).1,
      (rewriteAll step (step s a).2 as).2)

/-- Source: ssa_pass.rs:74-82 -/
def foldInstr (s : FoldState) (i : Instruction) : Instruction × FoldState :=
  let kind := i.kind.mapOperands (substOp s.env)
  let count := s.replacements + i.kind.operands.countP (isKnown s.env)
  match tryFold kind with
  | some c => ({ i with kind := .const c }, ⟨Function.update s.env i.result (some c), count⟩)
  | none => ({ i with kind }, ⟨s.env, count⟩)

/-- Source: ssa_pass.rs:72-87 -/
def foldBlock (s : FoldState) (b : BasicBlock) : BasicBlock × FoldState :=
  let (instructions, s) := rewriteAll foldInstr s b.instructions
  ({ b with instructions, terminator := b.terminator.mapOperands (substOp s.env) },
    { s with replacements := s.replacements + b.terminator.operands.countP (isKnown s.env) })

/-- Source: ssa_pass.rs:52-70 -/
def foldConstantsInFunction (f : Function) : Function × Nat :=
  let (blocks, s) := rewriteAll foldBlock ⟨fun _ => none, 0⟩ f.blocks
  ({ f with blocks }, s.replacements)

/-- Source: ssa_pass.rs:44-50 -/
def foldConstants (m : Module) : Module × Nat :=
  (⟨m.functions.map fun f => (foldConstantsInFunction f).1⟩,
    (m.functions.map fun f => (foldConstantsInFunction f).2).sum)

/-! ## Dead-code elimination -/

/-- Source: ssa_pass.rs:258-271 -/
structure DceStats where
  branchesThreaded : Nat
  blocksRemoved : Nat
  instructionsRemoved : Nat
  iterations : Nat
  deriving DecidableEq

/-- Source: ssa_pass.rs:316-336 -/
def threadTerminator : Terminator → Terminator
  | .branch (.const (.bool b)) thenBlock thenArgs elseBlock elseArgs =>
    if b then .jump thenBlock thenArgs else .jump elseBlock elseArgs
  | t => t

/-- Whether threading rewrites the terminator. -/
def isConstBranch : Terminator → Bool
  | .branch (.const (.bool _)) _ _ _ _ => true
  | _ => false

/-- Source: ssa_pass.rs:313-339 -/
def threadBranches (f : Function) : Function × Nat :=
  ({ f with blocks := f.blocks.map fun b => { b with terminator := threadTerminator b.terminator } },
    f.blocks.countP fun b => isConstBranch b.terminator)

/-- The blocks a terminator leads to. Source: ssa_pass.rs:357-366 -/
def Terminator.targets : Terminator → List BlockId
  | .ret _ | .unreachable => []
  | .jump target _ => [target]
  | .branch _ thenBlock _ elseBlock _ => [thenBlock, elseBlock]

/-- Source: ssa_pass.rs:350-367 -/
def reachable (f : Function) : Option (List BlockId) :=
  search (fun id => (f.blocks[id]?).map fun b => b.terminator.targets) (2 * f.blocks.length + 1)
    [] [f.entry]

/-- The new numbers of the surviving blocks, and these blocks under them.
Source: ssa_pass.rs:377-388 -/
def renumber (reached : List BlockId) (blocks : List BasicBlock) :
    List (BlockId × BlockId) × List BasicBlock :=
  blocks.foldl
    (fun acc b =>
      if b.id ∈ reached then
        ((b.id, acc.2.length) :: acc.1, acc.2 ++ [{ b with id := acc.2.length }])
      else acc)
    ([], [])

/-- Source: ssa_pass.rs:391-404 -/
def retarget (newIdOf : List (BlockId × BlockId)) : Terminator → Option Terminator
  | .jump target args => (newIdOf.lookup target).map fun t => .jump t args
  | .branch cond thenBlock thenArgs elseBlock elseArgs =>
    match newIdOf.lookup thenBlock, newIdOf.lookup elseBlock with
    | some t, some e => some (.branch cond t thenArgs e elseArgs)
    | _, _ => none
  | t => some t

/-- Source: ssa_pass.rs:346-409 -/
def removeUnreachableBlocks (f : Function) : Option (Function × Nat) := do
  let reached ← reachable f
  if reached.length = f.blocks.length then pure (f, 0)
  else do
    let (newIdOf, newBlocks) := renumber reached f.blocks
    let blocks ← newBlocks.mapM fun b => (retarget newIdOf b.terminator).map fun t =>
      { b with terminator := t }
    let entry ← newIdOf.lookup f.entry
    pure ({ f with entry, blocks }, f.blocks.length - reached.length)

/-- The value an operand names. Source: ssa_pass.rs:506-510 -/
def Operand.values : Operand → List ValueId
  | .value v => [v]
  | .const _ => []

/-- Source: ssa_pass.rs:447-485 -/
def collectUsed : InstrKind → List ValueId
  | .const _ | .strLit _ | .hint _ => []
  | .unary _ x => x.values
  | .binary _ l r => l.values ++ r.values
  | .call _ args => args.flatMap Operand.values
  | .cast x _ => x.values
  | .arrayLit elements => elements.flatMap Operand.values
  | .index array index _ => array.values ++ index.values
  | .len array _ => array.values
  | .indexAssign _ _ index value _ => index.values ++ value.values
  | .fnRef _ => []
  | .callIndirect callee args => callee.values ++ args.flatMap Operand.values
  | .refOf _ _ | .drop _ _ _ => []

/-- Source: ssa_pass.rs:487-510 -/
def Terminator.used : Terminator → List ValueId
  | .ret (some x) => x.values
  | .ret none | .unreachable => []
  | .jump _ args => args.flatMap Operand.values
  | .branch cond _ thenArgs _ elseArgs =>
    cond.values ++ thenArgs.flatMap Operand.values ++ elseArgs.flatMap Operand.values

/-- Source: ssa_pass.rs:512-543 -/
def isSafeToDrop : InstrKind → Bool
  | .const _ | .unary _ _ | .cast _ _ | .len _ _ | .refOf _ _ => true
  | .binary op _ _ => !(op == .div || op == .rem || op == .shl || op == .shr)
  | .fnRef _ => true
  | .call _ _ | .callIndirect _ _ | .arrayLit _ | .index _ _ _ | .indexAssign _ _ _ _ _
  | .hint _ | .strLit _ | .drop _ _ _ => false

/-- The values used anywhere in the function. Source: ssa_pass.rs:424-431 -/
def usedValues (blocks : List BasicBlock) : List ValueId :=
  blocks.flatMap fun b => b.instructions.flatMap (fun i => collectUsed i.kind) ++ b.terminator.used

/-- Source: ssa_pass.rs:437-442 -/
def isKept (used : List ValueId) (i : Instruction) : Bool :=
  used.contains i.result || !isSafeToDrop i.kind

/-- Source: ssa_pass.rs:418-445 -/
def removeDeadInstructions (f : Function) : Function × Nat :=
  let used := usedValues f.blocks
  ({ f with blocks := f.blocks.map fun b =>
      { b with instructions := b.instructions.filter (isKept used) } },
    (f.blocks.map fun b => b.instructions.countP fun i => !isKept used i).sum)

/-- One turn of the loop over a function. Source: ssa_pass.rs:281-296 -/
def dceRound (f : Function) (stats : DceStats) : Option (Function × DceStats × Bool) := do
  let (f, threaded) := threadBranches f
  let (f, removedBlocks) ← removeUnreachableBlocks f
  let (f, removedInstrs) := removeDeadInstructions f
  pure (f,
    ⟨stats.branchesThreaded + threaded, stats.blocksRemoved + removedBlocks,
      stats.instructionsRemoved + removedInstrs, stats.iterations + 1⟩,
    decide (0 < threaded + removedBlocks + removedInstrs))

/-- The loop over a function, with a bound on its turns. Source: ssa_pass.rs:280-300 -/
def dceLoop : Nat → Function → DceStats → Option (Function × DceStats)
  | 0, _, _ => none
  | fuel + 1, f, stats => do
    let (f, stats, changed) ← dceRound f stats
    if changed then dceLoop fuel f stats else pure (f, stats)

/-- More turns than a function can take: each takes an instruction, a block or a constant
branch away. -/
def Function.turns (f : Function) : Nat :=
  (f.blocks.map fun b => b.instructions.length).sum + 3

/-- Source: ssa_pass.rs:278-303 -/
def dceModule (m : Module) : Option (Module × DceStats) := do
  let (functions, stats) ← m.functions.foldlM
    (fun (acc : List Function × DceStats) f => do
      let (f, stats) ← dceLoop f.turns f acc.2
      pure (acc.1 ++ [f], stats))
    ([], ⟨0, 0, 0, 0⟩)
  pure (⟨functions⟩, stats)

end Vani.Program.Ssa
