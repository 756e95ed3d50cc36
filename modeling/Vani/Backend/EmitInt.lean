import Vani.Program.Ir
import Vani.Program.ConstFold
import Vani.Library.CInteger

/-!
# Integer expressions in C

The C backend's emission of integer expressions: arithmetic, comparison, bitwise and shift
operators, unary operators and casts, nested in any way. The emitted text is fully
parenthesised, so it is kept here as the tree it denotes; `text` is the text itself. The
meaning of the text is that of C, of the typed expression that of fixed-width arithmetic
at each node's type.
-/

set_option autoImplicit false

namespace Vani.Backend

open Vani.Program Vani.Library

/-- The C expressions the backend emits for integers. -/
inductive CExpr
  | lit (n : Nat)
  | negLit (n : Nat)
  | var (name : String)
  | unary (op : UnaryOp) (e : CExpr)
  | binary (op : BinaryOp) (l r : CExpr)
  | cast (t : IntTy) (e : CExpr)
  | checkDivisor (t : IntTy) (e : CExpr)
  | checkShift (t : IntTy) (e : CExpr) (bits : Nat)

/-- Source: ast.rs:1491-1514 -/
def displaySymbol : BinaryOp → String
  | .add => "+"
  | .sub => "-"
  | .mul => "*"
  | .div => "/"
  | .rem => "%"
  | .shl => "<<"
  | .shr => ">>"
  | .bitAnd => "&"
  | .bitOr => "|"
  | .bitXor => "^"
  | .eq => "=="
  | .ne => "!="
  | .lt => "<"
  | .le => "<="
  | .gt => ">"
  | .ge => ">="
  | .and => "&&"
  | .or => "||"

/-- Source: backend_c.rs:12263-12274 -/
def cLeafType : IntTy → String
  | .i8 => "int8_t"
  | .i16 => "int16_t"
  | .i32 => "int32_t"
  | .i64 => "int64_t"
  | .u8 => "uint8_t"
  | .u16 => "uint16_t"
  | .u32 => "uint32_t"
  | .u64 => "uint64_t"

/-- The part of a helper's name that stands for the type.
Source: backend_c.rs:12667-12694 -/
def helperType : IntTy → String
  | .i8 => "i8"
  | .i16 => "i16"
  | .i32 => "i32"
  | .i64 => "i64"
  | .u8 => "u8"
  | .u16 => "u16"
  | .u32 => "u32"
  | .u64 => "u64"

/-- Source: backend_c.rs:12734-12743 -/
def sanitizeIdent (name : String) : String :=
  name.map fun ch => if ch.isAlphanum || ch == '_' then ch else '_'

/-- The emitted text. Source: backend_c.rs:8449-8475, 12229-12242, 12730-12732 -/
def CExpr.text : CExpr → String
  | lit n => toString n
  | negLit n => "-" ++ toString n
  | var name => "v_" ++ sanitizeIdent name
  | unary .neg e => "(-" ++ e.text ++ ")"
  | unary .not e => "(!" ++ e.text ++ ")"
  | binary op l r => "(" ++ l.text ++ " " ++ displaySymbol op ++ " " ++ r.text ++ ")"
  | cast t e => "((" ++ cLeafType t ++ ")(" ++ e.text ++ "))"
  | checkDivisor t e => "intent_check_" ++ helperType t ++ "_divisor(" ++ e.text ++ ")"
  | checkShift t e bits =>
    "intent_check_" ++ helperType t ++ "_shift(" ++ e.text ++ ", " ++ toString bits ++ ")"

/-- The right operand, behind a check where the operator needs one.
Source: backend_c.rs:12229-12239 -/
def emitRight (op : BinaryOp) (checked : Bool) (leftTy rightTy : Ty) (r : CExpr) : CExpr :=
  match op, checked, leftTy, rightTy with
  | .div, true, _, .int t | .rem, true, _, .int t => .checkDivisor t r
  | .shl, true, .int s, .int t | .shr, true, .int s, .int t => .checkShift t r s.bits
  | _, _, _, _ => r

/-- Minus before the text of a negative number is the token `--`, which C does not apply
to a number. -/
def negates (op : UnaryOp) : CExpr → Option CExpr
  | .negLit n => if op = .neg then none else some (.unary op (.negLit n))
  | e => some (.unary op e)

/-- The emission of an integer expression; other forms have their own. A number is negative
only where it is the value of a named constant.
Source: backend_c.rs:8449-8475, 12162-12242, checker.rs:10406-10422 -/
def emitExpr : TypedExpr → Option CExpr
  | .mk (.int v) _ => some (if 0 ≤ v then .lit v.toNat else .negLit v.natAbs)
  | .mk (.var name) _ => some (.var name)
  | .mk (.unary op e) _ => (emitExpr e).bind (negates op)
  | .mk (.binary op l r checked) _ =>
    match emitExpr l, emitExpr r with
    | some cl, some cr => some (.binary op cl (emitRight op checked l.ty r.ty cr))
    | _, _ => none
  | .mk (.cast e (.int t)) _ => (emitExpr e).map (CExpr.cast t)
  | _ => none

/-! ## What the text means, and what the expression means -/

/-- The C type of the same values. -/
def cType (t : IntTy) : IntType := ⟨t.isSigned, t.bits⟩

/-- A C operator on two values. `&&` and `||` are not integer operators. -/
def cBinary (op : BinaryOp) (a b : CValue) : Option CValue :=
  match op with
  | .shl => shiftLeft a b
  | .shr => shiftRight a b
  | .eq | .ne | .lt | .le | .gt | .ge =>
    some (comparison (fun x y => (compareIntegers op x y).getD false) a b)
  | .and | .or => none
  | .rem => remainder (exactInteger .div) (exactInteger .rem) a b
  | _ => arithmetic (exactInteger op) a b

/-- The value of an emitted expression, `none` where a check fails or C leaves the result
undefined. The helpers take and return their argument at the C type of their name.
Source: backend_c.rs:12637-12661 -/
def cEval (Γ : String → Option IntTy) (σ : String → Option Int) : CExpr → Option CValue
  | .lit n => some (literal n)
  | .negLit n => negate (literal n)
  | .var name =>
    match Γ name, σ name with
    | some t, some v => some ⟨cType t, v⟩
    | _, _ => none
  | .unary .neg e => (cEval Γ σ e).bind negate
  | .unary .not e => (cEval Γ σ e).map fun c => ⟨cInt, if c.value = 0 then 1 else 0⟩
  | .binary op l r =>
    match cEval Γ σ l, cEval Γ σ r with
    | some a, some b => cBinary op a b
    | _, _ => none
  | .cast t e => (cEval Γ σ e).map (convert (cType t))
  | .checkDivisor t e => (cEval Γ σ e).bind fun c =>
    if (convert (cType t) c).value = 0 then none else some (convert (cType t) c)
  | .checkShift t e bits => (cEval Γ σ e).bind fun c =>
    if 0 ≤ (convert (cType t) c).value ∧ (convert (cType t) c).value < bits then
      some (convert (cType t) c)
    else none

/-- A binary operation at the type of its operands, `none` where it traps. -/
def fixedBinary (op : BinaryOp) (operandTy : Ty) (a b : Int) : Option Int :=
  match operandTy with
  | .int t =>
    match op with
    | .shl | .shr =>
      if 0 ≤ b ∧ b < t.bits then (exactInteger op a b).map (cType t).wrap else none
    | .eq | .ne | .lt | .le | .gt | .ge =>
      (compareIntegers op a b).map fun r => if r then 1 else 0
    | .and | .or => none
    | _ => (exactInteger op a b).map (cType t).wrap
  | _ => none

/-- Fixed-width arithmetic at each node's own type; truth values are 0 and 1.
Source: smt.rs:662-727, 729-763 -/
def fixedValue (σ : String → Option Int) : TypedExpr → Option Int
  | .mk (.int v) _ => some v
  | .mk (.var name) _ => σ name
  | .mk (.unary .neg e) (.int t) => (fixedValue σ e).map fun v => (cType t).wrap (-v)
  | .mk (.unary .not e) _ => (fixedValue σ e).map fun v => if v = 0 then 1 else 0
  | .mk (.binary op l r _) _ =>
    match fixedValue σ l, fixedValue σ r with
    | some a, some b => fixedBinary op l.ty a b
    | _, _ => none
  | .mk (.cast e (.int t)) _ => (fixedValue σ e).map (cType t).wrap
  | _ => none

/-- The operators on two integers of one type that give an integer of that type. -/
def isArithmetic : BinaryOp → Bool
  | .add | .sub | .mul | .div | .rem | .bitAnd | .bitOr | .bitXor => true
  | _ => false

/-- Comparisons. -/
def isComparison : BinaryOp → Bool
  | .eq | .ne | .lt | .le | .gt | .ge => true
  | _ => false

/-- The integer expressions the checker accepts, with the types it gives them.
Source: checker.rs:10337-10380, 13026-13365, 13367-13524, 21811-21844 -/
inductive IntTyped (Γ : String → Option IntTy) : TypedExpr → Prop
  | int {n : Nat} : (n : Int) ≤ IntTy.maxValue .u64 →
      IntTyped Γ (.mk (.int n) (.int (if (n : Int) ≤ IntTy.maxValue .i64 then .i64 else .u64)))
  | var {name t} : Γ name = some t → IntTyped Γ (.mk (.var name) (.int t))
  | neg {e t} : IntTyped Γ e → e.ty = .int t → t.isSigned = true →
      IntTyped Γ (.mk (.unary .neg e) (.int t))
  -- a literal above the range of `i64` is negated at `i64`
  | negLiteral : IntTyped Γ (.mk (.unary .neg (.mk (.int (2 ^ 63)) (.int .u64))) (.int .i64))
  | not {e} : IntTyped Γ e → e.ty = .bool → IntTyped Γ (.mk (.unary .not e) .bool)
  | arithmetic {op l r checked t} : isArithmetic op = true → IntTyped Γ l → IntTyped Γ r →
      l.ty = .int t → r.ty = .int t → IntTyped Γ (.mk (.binary op l r checked) (.int t))
  | shift {op l r checked t s} : op = .shl ∨ op = .shr → IntTyped Γ l → IntTyped Γ r →
      l.ty = .int t → r.ty = .int s → IntTyped Γ (.mk (.binary op l r checked) (.int t))
  | compare {op l r checked t} : isComparison op = true → IntTyped Γ l → IntTyped Γ r →
      l.ty = .int t → r.ty = .int t → IntTyped Γ (.mk (.binary op l r checked) .bool)
  | cast {e t t'} : IntTyped Γ e → e.ty = .int t →
      IntTyped Γ (.mk (.cast e (.int t')) (.int t'))

end Vani.Backend
