import Vani.Program.Ssa
import Vani.Program.SsaPass
import Vani.Backend.EmitInt

/-!
# Running the SSA form

A module runs on a machine with a stack of frames, one for each call that has not returned:
the place in the code of a function, and what its values hold. Integers are computed at the
width and signedness of the type of the instruction: the result is reduced into the type,
and division by zero, division of the least value by minus one and a shift by a count
outside the width trap. Everything else (memory, floats, foreign calls) is done by a host.
A reference leads to the place of a value, so the host may write into values of any frame.
-/

set_option autoImplicit false

namespace Vani.Model.Ssa

open Vani.Library Vani.Program.Ssa
open Vani.Program (Ty BinaryOp)
open Vani.Backend (cType)

/-- A run-time value; `ν` are those the machine does not compute with. -/
inductive Val (ν : Type)
  | int (value : Int)
  | bool (value : Bool)
  | float (bits : Nat)
  | unit
  | other (x : ν)
  deriving DecidableEq

variable {ν ω : Type}

/-- A constant as a value. -/
def Val.ofConst : Const → Val ν
  | .int v => .int v
  | .bool b => .bool b
  | .float bits => .float bits

/-- A value where one of the type is wanted: integers are reduced into the type. -/
def Val.at (x : Val ν) (ty : Ty) : Val ν :=
  match x, ty with
  | .int v, .int t => .int ((cType t).wrap v)
  | x, _ => x

/-- An open call. -/
structure Frame (ν : Type) where
  fn : Nat
  block : BlockId
  /-- The number of instructions of the block that have run. -/
  done : Nat
  regs : ValueId → Option (Val ν)

namespace Frame

/-- What an operand holds. -/
def eval (fr : Frame ν) : Operand → Option (Val ν)
  | .value v => fr.regs v
  | .const c => some (.ofConst c)

def set (fr : Frame ν) (v : ValueId) (x : Val ν) : Frame ν :=
  { fr with regs := Function.update fr.regs v (some x) }

/-- The frame after the instruction it is at, which gives a result. -/
def advance (fr : Frame ν) (result : ValueId) (x : Val ν) : Frame ν :=
  { fr.set result x with done := fr.done + 1 }

end Frame

/-- The machine's own computation: a value, a trap, or none of its business. -/
inductive Computed (ν : Type)
  | value (x : Val ν)
  | trap
  | host

/-- An integer operator at a type; `none` is a trap. -/
def arith (t : IntType) (op : BinaryOp) (a b : Int) : Option Int :=
  match op with
  | .add => some (t.wrap (a + b))
  | .sub => some (t.wrap (a - b))
  | .mul => some (t.wrap (a * b))
  | .div => if b ≠ 0 ∧ t.Fits (a.tdiv b) then some (a.tdiv b) else none
  | .rem => if b ≠ 0 ∧ t.Fits (a.tdiv b) then some (a.tmod b) else none
  | .bitAnd => some (t.wrap (a.land b))
  | .bitOr => some (t.wrap (a.lor b))
  | .bitXor => some (t.wrap (a.xor b))
  | .shl => if 0 ≤ b ∧ b < t.bits then some (t.wrap (a * 2 ^ b.toNat)) else none
  | .shr => if 0 ≤ b ∧ b < t.bits then some (a / 2 ^ b.toNat) else none
  | _ => none

/-- A comparison of integers; both are of one type, and compare as the numbers they are. -/
def relation : BinaryOp → Int → Int → Option Bool
  | .eq, a, b => some (a == b)
  | .ne, a, b => some (a != b)
  | .lt, a, b => some (decide (a < b))
  | .le, a, b => some (decide (a ≤ b))
  | .gt, a, b => some (decide (b < a))
  | .ge, a, b => some (decide (b ≤ a))
  | _, _, _ => none

/-- An operator on booleans. -/
def connective : BinaryOp → Bool → Bool → Option Bool
  | .and, a, b => some (a && b)
  | .or, a, b => some (a || b)
  | .eq, a, b => some (a == b)
  | .ne, a, b => some (a != b)
  | _, _, _ => none

/-- An operator on integers, at the type of the instruction. -/
def integer (ty : Ty) (op : BinaryOp) (a b : Int) : Computed ν :=
  match relation op a b with
  | some r => .value (.bool r)
  | none =>
    match op, ty with
    | .and, _ | .or, _ => .host
    | _, .int t =>
      match arith (cType t) op ((cType t).wrap a) ((cType t).wrap b) with
      | some v => .value (.int v)
      | none => .trap
    | _, _ => .host

/-- What the machine makes of an instruction of a type on the values of its operands. -/
def operate (ty : Ty) (k : InstrKind) (xs : List (Val ν)) : Computed ν :=
  match k, xs with
  | .const c, _ => .value ((Val.ofConst c).at ty)
  | .unary .neg _, [.int a] =>
    match ty with
    | .int t => .value (.int ((cType t).wrap (-(cType t).wrap a)))
    | _ => .host
  | .unary .neg _, [.float bits] => .value (.float (negFloat bits))
  | .unary .not _, [.bool a] => .value (.bool !a)
  | .binary op _ _, [.int a, .int b] => integer ty op a b
  | .binary op _ _, [.bool a, .bool b] =>
    match connective op a b with
    | some r => .value (.bool r)
    | none => .host
  | .cast _ (.int t), [.int a] => .value (.int ((cType t).wrap a))
  | _, _ => .host

/-- An instruction without its operands. -/
def shape (k : InstrKind) : InstrKind := k.mapOperands fun _ => .const (.bool false)

/-- What the host makes of an instruction: the result, the values it writes through
references (how many calls up, which value, what), and the world afterwards. `none` is a
trap. -/
structure Host (ν ω : Type) where
  act : InstrKind → List (Val ν) → Ty → List (Frame ν) → ω →
    Option (Val ν × List (Nat × ValueId × Val ν) × ω)

/-- The machine during a run. -/
inductive State (ν ω : Type)
  | running (frame : Frame ν) (callers : List (Frame ν)) (world : ω)
  | returned (result : Val ν) (world : ω)
  | trapped (world : ω)
  | stuck

/-- A write through a reference. -/
def write (frames : List (Frame ν)) (w : Nat × ValueId × Val ν) : List (Frame ν) :=
  frames.modify w.1 fun fr => fr.set w.2.1 w.2.2

/-- The parameters of a block receive values. -/
def bind (regs : ValueId → Option (Val ν)) :
    List (ValueId × Ty) → List (Val ν) → Option (ValueId → Option (Val ν))
  | [], [] => some regs
  | (v, ty) :: params, x :: xs => bind (Function.update regs v (some (x.at ty))) params xs
  | _, _ => none

section Code

variable (m : Module)

/-- The block a frame is in. -/
def blockOf (fr : Frame ν) : Option BasicBlock :=
  (m.functions[fr.fn]?).bind fun f => f.blocks[fr.block]?

/-- The function of the module that an instruction calls. -/
def callee : InstrKind → Option Nat
  | .call name _ => m.functions.findIdx? fun f => f.name == name && !f.isExtern
  | _ => none

/-- A call of a function of the module. -/
def enter (k : Nat) (xs : List (Val ν)) (callers : List (Frame ν)) (world : ω) : State ν ω :=
  match m.functions[k]? with
  | none => .stuck
  | some f =>
    match f.blocks[f.entry]? with
    | none => .stuck
    | some b =>
      match bind (fun _ => none) b.params xs with
      | some regs => .running ⟨k, f.entry, 0, regs⟩ callers world
      | none => .stuck

/-- A jump within a function. -/
def goto (target : BlockId) (args : List Operand) (fr : Frame ν) (callers : List (Frame ν))
    (world : ω) : State ν ω :=
  match args.mapM fr.eval, blockOf m { fr with block := target } with
  | some xs, some b =>
    match bind fr.regs b.params xs with
    | some regs => .running ⟨fr.fn, target, 0, regs⟩ callers world
    | none => .stuck
  | _, _ => .stuck

/-- The return from a call. -/
def leave (x : Val ν) (callers : List (Frame ν)) (world : ω) : State ν ω :=
  match callers with
  | [] => .returned x world
  | fr :: callers =>
    match (blockOf m fr).bind fun b => b.instructions[fr.done]? with
    | some i => .running (fr.advance i.result x) callers world
    | none => .stuck

/-- What the host makes of an instruction. -/
def actHost (H : Host ν ω) (i : Instruction) (xs : List (Val ν)) (fr : Frame ν)
    (callers : List (Frame ν)) (world : ω) : State ν ω :=
  match H.act (shape i.kind) xs i.ty (fr :: callers) world with
  | none => .trapped world
  | some (x, writes, world) =>
    match writes.foldl write (fr :: callers) with
    | fr :: callers => .running (fr.advance i.result x) callers world
    | [] => .stuck

/-- An instruction. -/
def execInstr (H : Host ν ω) (i : Instruction) (fr : Frame ν) (callers : List (Frame ν))
    (world : ω) : State ν ω :=
  match i.kind.operands.mapM fr.eval with
  | none => .stuck
  | some xs =>
    match operate i.ty i.kind xs with
    | .value x => .running (fr.advance i.result x) callers world
    | .trap => .trapped world
    | .host =>
      match callee m i.kind with
      | some k => enter m k xs (fr :: callers) world
      | none => actHost H i xs fr callers world

/-- The end of a block. -/
def execTerminator (t : Terminator) (fr : Frame ν) (callers : List (Frame ν)) (world : ω) :
    State ν ω :=
  match t with
  | .ret none => leave m .unit callers world
  | .ret (some x) =>
    match fr.eval x with
    | some x => leave m x callers world
    | none => .stuck
  | .jump target args => goto m target args fr callers world
  | .branch cond thenBlock thenArgs elseBlock elseArgs =>
    match fr.eval cond with
    | some (.bool true) => goto m thenBlock thenArgs fr callers world
    | some (.bool false) => goto m elseBlock elseArgs fr callers world
    | _ => .stuck
  | .unreachable => .trapped world

/-- One step of the machine. -/
def step (H : Host ν ω) : State ν ω → State ν ω
  | .running fr callers world =>
    match blockOf m fr with
    | none => .stuck
    | some b =>
      match b.instructions[fr.done]? with
      | some i => execInstr m H i fr callers world
      | none => execTerminator m b.terminator fr callers world
  | s => s

/-- The machine after some steps. -/
def run (H : Host ν ω) : Nat → State ν ω → State ν ω
  | 0, s => s
  | n + 1, s => step m H (run H n s)

end Code

end Vani.Model.Ssa
