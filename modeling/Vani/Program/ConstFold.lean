import Vani.Program.Ast
import Mathlib.Data.Int.Bitwise

/-!
# Constant folding

What `check_expr` computes for the `constant` field of a typed expression, on operands
that are themselves constant. A constant travels with its type and with the mark that
makes a literal adapt to the other operand (`flexible_integer`, `flexible_float`), so
the three are kept together as a `Scalar`. Folding of floats is the host's own `f64`
arithmetic and enters as a parameter.
-/

set_option autoImplicit false

namespace Vani.Program

/-- A known constant: its type, whether it is still a flexible literal, its value.
Source: checker.rs:268-272, ir.rs:427-432 -/
inductive Scalar
  | int (ty : IntTy) (flexible : Bool) (value : Int)
  | float (ty : FloatTy) (flexible : Bool) (bits : Nat)
  | bool (value : Bool)
  deriving DecidableEq

namespace Scalar

/-- The type the checker gives the constant. -/
def ty : Scalar → Ty
  | int t _ _ => .int t
  | float t _ _ => .float t
  | bool _ => .bool

/-- Whether the checker gives the constant the type. -/
def hasTy : Scalar → Ty → Bool
  | int t _ _, .int t' => t == t'
  | float t _ _, .float t' => t == t'
  | bool _, .bool => true
  | _, _ => false

/-- A constant that has been bound to a name is no longer a flexible literal. -/
def settle : Scalar → Scalar
  | int t _ v => int t false v
  | float t _ b => float t false b
  | bool b => bool b

end Scalar

/-- The operators that take numbers or booleans to a number or a boolean. -/
inductive ScalarOp
  | unary (op : UnaryOp)
  | binary (op : BinaryOp)
  | cast (ty : Ty)

/-- Source: checker.rs:22542-22548 -/
def valueFitsType (value : Int) (ty : IntTy) : Bool :=
  decide (ty.minValue ≤ value) && decide (value ≤ ty.maxValue)

/-- Source: checker.rs:22227-22235 -/
def signedType : Nat → Option IntTy
  | 8 => some .i8
  | 16 => some .i16
  | 32 => some .i32
  | 64 => some .i64
  | _ => none

/-- Source: checker.rs:22237-22245 -/
def unsignedType : Nat → Option IntTy
  | 8 => some .u8
  | 16 => some .u16
  | 32 => some .u32
  | 64 => some .u64
  | _ => none

/-- Source: checker.rs:22210-22225 -/
def commonIntegerType (left right : IntTy) : Option IntTy :=
  match left.isSigned, right.isSigned with
  | true, true => signedType (max left.bits right.bits)
  | false, false => unsignedType (max left.bits right.bits)
  | true, false => if left.bits > right.bits then some left else none
  | false, true => if right.bits > left.bits then some right else none

/-- Source: checker.rs:22199-22208 -/
def adaptedIntegerLiteralType (flexible : Bool) (value : Int) (target : IntTy) :
    Option IntTy :=
  if flexible && valueFitsType value target then some target else none

/-- The type an integer operation on two constants is done at.
Source: checker.rs:22159-22197 -/
def promotedIntegerType (lt : IntTy) (lf : Bool) (lv : Int) (rt : IntTy) (rf : Bool) (rv : Int) :
    Option IntTy :=
  let leftType := (adaptedIntegerLiteralType lf lv rt).getD lt
  let rightType := (adaptedIntegerLiteralType rf rv leftType).getD rt
  commonIntegerType leftType rightType

/-- The mathematical result of an integer operation, `none` on a zero divisor.
Source: checker.rs:22254-22277, 22350-22354 -/
def exactInteger (op : BinaryOp) (a b : Int) : Option Int :=
  match op with
  | .add => some (a + b)
  | .sub => some (a - b)
  | .mul => some (a * b)
  | .div => if b = 0 then none else some (a.tdiv b)
  | .rem => if b = 0 then none else some (a.tmod b)
  | .bitAnd => some (a.land b)
  | .bitOr => some (a.lor b)
  | .bitXor => some (a.xor b)
  | .shl => if 0 ≤ b then some (a * 2 ^ b.toNat) else none
  | .shr => if 0 ≤ b then some (a / 2 ^ b.toNat) else none
  | _ => none

/-- Source: checker.rs:22247-22301 -/
def evalIntegerBinary (op : BinaryOp) (a b : Int) (resultType : IntTy) : Option Int :=
  match exactInteger op a b with
  | some value => if valueFitsType value resultType then some value else none
  | none => none

/-- `eval_shift` and the guards `check_shift` puts before it: the count must lie within
the width, and a negative signed value is not shifted left.
Source: checker.rs:13367-13429, 22342-22376 -/
def evalShift (op : BinaryOp) (value count : Int) (resultType : IntTy) : Option Int :=
  if 0 ≤ count ∧ count < resultType.bits ∧
      ¬(op = .shl ∧ resultType.isSigned = true ∧ value < 0) then
    evalIntegerBinary op value count resultType
  else none

/-- Source: checker.rs:13496-13524, 13542-13890 (the comparison of two integer constants) -/
def compareIntegers (op : BinaryOp) (a b : Int) : Option Bool :=
  match op with
  | .lt => some (decide (a < b))
  | .le => some (decide (a ≤ b))
  | .gt => some (decide (a > b))
  | .ge => some (decide (a ≥ b))
  | .eq => some (decide (a = b))
  | .ne => some (decide (a ≠ b))
  | _ => none

/-- The constant of `left op right` when both operands are constant.
Source: checker.rs:13128-13225, 13227-13365, 13905-13946 -/
def foldBinary (floatFold : ScalarOp → List Scalar → Option Scalar) (op : BinaryOp) :
    Scalar → Scalar → Option Scalar
  | .int lt lf a, .int rt rf b =>
    match op with
    | .shl | .shr => (evalShift op a b lt).map (Scalar.int lt false)
    | .lt | .le | .gt | .ge | .eq | .ne => (compareIntegers op a b).map Scalar.bool
    | .and | .or => none
    | _ =>
      match promotedIntegerType lt lf a rt rf b with
      | some t => (evalIntegerBinary op a b t).map (Scalar.int t false)
      | none => none
  | .bool a, .bool b =>
    match op with
    | .and => some (.bool (a && b))
    | .or => some (.bool (a || b))
    | .eq => some (.bool (a == b))
    | .ne => some (.bool (a != b))
    | _ => none
  | l, r => floatFold (.binary op) [l, r]

/-- The constant of `-e` and `!e`. The negated value is held against the range of `i64`
whatever the operand's type is. Source: checker.rs:13026-13126 -/
def foldUnary (floatFold : ScalarOp → List Scalar → Option Scalar) (op : UnaryOp) :
    Scalar → Option Scalar
  | .int t flexible v =>
    match op with
    | .neg =>
      if valueFitsType (-v) .i64 then
        some (.int (if flexible then .i64 else t) false (-v))
      else none
    | .not => none
  | .bool b =>
    match op with
    | .not => some (.bool (!b))
    | .neg => none
  | s => floatFold (.unary op) [s]

/-- Source: checker.rs:22400-22427 -/
def evalCastConstant (floatFold : ScalarOp → List Scalar → Option Scalar) (target : Ty) :
    Scalar → Option Scalar
  | .int t flexible v =>
    match target with
    | .int t' => if valueFitsType v t' then some (.int t' false v) else none
    | .float _ => floatFold (.cast target) [.int t flexible v]
    | _ => none
  | .float t flexible b =>
    match target with
    | .int _ | .float _ => floatFold (.cast target) [.float t flexible b]
    | _ => none
  | .bool b =>
    match target with
    | .bool => some (.bool b)
    | _ => none

/-- The constant of a conversion, explicit or inserted by a coercion; one to the type the
constant has is left alone. Source: checker.rs:21811-21855, 22072-22077 -/
def foldCast (floatFold : ScalarOp → List Scalar → Option Scalar) (target : Ty) (s : Scalar) :
    Option Scalar :=
  if s.hasTy target then some s.settle else evalCastConstant floatFold target s

end Vani.Program
