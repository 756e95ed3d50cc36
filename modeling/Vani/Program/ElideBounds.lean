import Vani.Program.SsaPass

/-!
# Elision of bounds checks

`src/ssa_pass.rs`: an access to an array whose length its type gives, at a constant index below
that length, loses its check. The parameters of a function are those of its entry block.
-/

set_option autoImplicit false

namespace Vani.Program.Ssa

/-- Source: ssa_pass.rs:671-676 -/
structure ElideStats where
  indexedLoadsElided : Nat
  indexStoresElided : Nat
  deriving DecidableEq

/-- Source: ssa_pass.rs:750-756 -/
def arrayExtent : Ty → Option Nat
  | .array _ length => some length
  | .ref inner | .refMut inner => arrayExtent inner
  | _ => none

/-- The array lengths that are known. -/
abbrev Lengths := ValueId → Option Nat

/-- `if let Some(n) = array_extent(ty) { map.insert(v, n); }` -/
def insertExtent (map : Lengths) (v : ValueId) (ty : Ty) : Lengths :=
  match arrayExtent ty with
  | some n => Function.update map v (some n)
  | none => map

/-- Source: ssa_pass.rs:724-746 -/
def insertResult (map : Lengths) (i : Instruction) : Lengths :=
  match i.kind with
  | .arrayLit elements => Function.update map i.result (some elements.length)
  | _ => insertExtent map i.result i.ty

/-- Source: ssa_pass.rs:716-748 -/
def collectArrayLengths (f : Function) : Lengths :=
  let params := ((f.blocks[f.entry]?).map BasicBlock.params).getD []
  let map := params.foldl (fun map p => insertExtent map p.1 p.2) fun _ => none
  f.blocks.foldl (fun map b => b.instructions.foldl insertResult map) map

/-- `n as u64` -/
def asU64 (n : Int) : Nat := (n % 2 ^ 64).toNat

/-- Source: ssa_pass.rs:768-771, 783-786 -/
def isBelow (index : Operand) (length : Nat) : Bool :=
  match index with
  | .const (.int n) => decide (0 ≤ n) && decide (asU64 n < length)
  | _ => false

/-- Source: ssa_pass.rs:758-772 -/
def indexIsInBounds (array index : Operand) (lengths : Lengths) : Bool :=
  match array with
  | .value v =>
    match lengths v with
    | some length => isBelow index length
    | none => false
  | _ => false

/-- Source: ssa_pass.rs:774-787 -/
def indexIsInBoundsForBase (baseTy : Ty) (index : Operand) : Bool :=
  match arrayExtent baseTy with
  | some length => isBelow index length
  | none => false

/-- Source: ssa_pass.rs:686-704 -/
def elideInstr (lengths : Lengths) (stats : ElideStats) (i : Instruction) :
    Instruction × ElideStats :=
  match i.kind with
  | .index array index isChecked =>
    if isChecked && indexIsInBounds array index lengths then
      ({ i with kind := .index array index false },
        { stats with indexedLoadsElided := stats.indexedLoadsElided + 1 })
    else (i, stats)
  | .indexAssign array baseTy index value isChecked =>
    if isChecked && indexIsInBoundsForBase baseTy index then
      ({ i with kind := .indexAssign array baseTy index value false },
        { stats with indexStoresElided := stats.indexStoresElided + 1 })
    else (i, stats)
  | _ => (i, stats)

/-- Source: ssa_pass.rs:684-705 -/
def elideBlock (lengths : Lengths) (stats : ElideStats) (b : BasicBlock) :
    BasicBlock × ElideStats :=
  let (instructions, stats) := rewriteAll (elideInstr lengths) stats b.instructions
  ({ b with instructions }, stats)

/-- Source: ssa_pass.rs:678-706 -/
def elideBoundsInFunction (stats : ElideStats) (f : Function) : Function × ElideStats :=
  let (blocks, stats) := rewriteAll (elideBlock (collectArrayLengths f)) stats f.blocks
  ({ f with blocks }, stats)

/-- Source: ssa_pass.rs:662-668 -/
def elideBounds (m : Module) : Module × ElideStats :=
  let (functions, stats) := rewriteAll elideBoundsInFunction ⟨0, 0⟩ m.functions
  (⟨functions⟩, stats)

end Vani.Program.Ssa
