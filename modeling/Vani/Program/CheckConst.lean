import Vani.Program.Ir
import Vani.Program.ConstFold
import Vani.Program.TypeDecls

/-!
# Checking constant integer expressions

What the checker makes of operators and casts on integers: the typed node, with the casts
that bring the operands to a common type, the constant it records for the node, and what it
reports instead. Names stand for constants here; floats, strings, aggregates and the
connectives `&&` and `||` have their own rules.
-/

set_option autoImplicit false

namespace Vani.Program

/-- Source: ir.rs:495-500, without floats -/
inductive TypedConst
  | int (value : Int)
  | bool (value : Bool)
  deriving DecidableEq

/-- What an error is about. -/
inductive ErrorKind
  | typing
  | overflow
  | division
  | shift
  deriving DecidableEq

structure FoldError where
  kind : ErrorKind
  message : String

/-- A typed expression, its constant, and whether it is a literal that adapts to the other
operand. Source: checker.rs:268-272 -/
structure CheckedExpr where
  expr : TypedExpr
  constant : Option TypedConst
  flexibleInteger : Bool

namespace CheckedExpr

def ty (c : CheckedExpr) : Ty := c.expr.ty

/-- Source: checker.rs:275-287 -/
def new (kind : TypedExprKind) (ty : Ty) (constant : Option TypedConst) : CheckedExpr where
  expr := .mk kind ty
  constant := constant
  flexibleInteger := false

/-- Source: checker.rs:297-308 -/
def fallback : Ty → CheckedExpr
  | .bool => new (.bool false) .bool none
  | ty => new (.int 0) ty none

/-- Source: checker.rs:306-308 -/
def fallbackInteger : CheckedExpr := fallback (.int .i64)

/-- The constant of an integer expression. -/
def intConstant (c : CheckedExpr) : Option Int :=
  match c.constant with
  | some (.int v) => some v
  | _ => none

end CheckedExpr

/-- What the environment knows of a name that stands for a constant: a named constant, or
a variable whose value is known. -/
structure ConstInfo where
  ty : IntTy
  value : Int
  isConst : Bool

/-- Source: checker.rs:230-250 -/
abbrev ConstEnv : Type := String → Option ConstInfo

/-! ## Folding, with what is reported -/

/-- An exact result, or `none` where 128 bits do not have it. -/
def checked128 (v : Int) : Option Int :=
  if -2 ^ 127 ≤ v ∧ v < 2 ^ 127 then some v else none

/-- Source: checker.rs:22247-22301 -/
def evalIntegerBinaryReporting (op : BinaryOp) (a b : Int) (resultType : IntTy) :
    Option Int × List FoldError :=
  let overflows : FoldError :=
    ⟨.overflow, "constant expression overflows " ++ (Ty.int resultType).display⟩
  if op = .div ∧ b = 0 then
    (none, [⟨.division, "division by zero in constant expression"⟩, overflows])
  else if op = .rem ∧ b = 0 then
    (none, [⟨.division, "remainder by zero in constant expression"⟩, overflows])
  else match (exactInteger op a b).bind checked128 with
    | none => (none, [overflows])
    | some value =>
      if valueFitsType value resultType then (some value, [])
      else (none, [⟨.overflow, "constant expression value " ++ toString value ++
        " does not fit in " ++ (Ty.int resultType).display⟩])

/-- Source: checker.rs:22342-22376 -/
def evalShiftReporting (op : BinaryOp) (value count : Int) (resultType : IntTy) :
    Option Int × List FoldError :=
  match exactInteger op value count with
  | none => (none, [⟨.shift, "shift overflows in constant expression"⟩])
  | some shifted =>
    if valueFitsType shifted resultType then (some shifted, [])
    else (none, [⟨.shift, "shift result value " ++ toString shifted ++ " does not fit in " ++
      (Ty.int resultType).display⟩])

/-! ## Common types -/

/-- Source: checker.rs:22199-22208 -/
def adaptedType (c : CheckedExpr) (target : IntTy) : Option IntTy :=
  match c.intConstant with
  | some v => adaptedIntegerLiteralType c.flexibleInteger v target
  | none => none

/-- The type at which an operation on two integers is done; `noun` is what the caller wants
its operands to be. Source: checker.rs:22109-22132, 22159-22197 -/
def promotedType (noun : String) (lhs rhs : CheckedExpr) : Except String IntTy :=
  match lhs.ty, rhs.ty with
  | .int lt, .int rt =>
    let leftType := (adaptedType lhs rt).getD lt
    let rightType := (adaptedType rhs leftType).getD rt
    match commonIntegerType leftType rightType with
    | some t => .ok t
    | none => .error ("no safe implicit integer promotion for " ++ (Ty.int leftType).display ++
        " and " ++ (Ty.int rightType).display ++ "; use an explicit cast")
  | .int _, ty => .error ("right operand must be " ++ noun ++ ", got " ++ ty.display)
  | ty, _ => .error ("left operand must be " ++ noun ++ ", got " ++ ty.display)

/-- Source: checker.rs:22400-22427 -/
def castInteger (target : IntTy) : TypedConst → Option TypedConst
  | .int v => if valueFitsType v target then some (.int v) else none
  | .bool _ => none

/-- Source: checker.rs:22079-22107 -/
def coerceNumericOperand (c : CheckedExpr) (target : IntTy) : CheckedExpr :=
  let cast := CheckedExpr.new (.cast c.expr (.int target)) (.int target)
    (c.constant.bind (castInteger target))
  match c.ty with
  | .int t => if t = target then c else cast
  | _ => cast

/-! ## The operators -/

/-- A checked expression and what was reported for it. -/
abbrev Checked : Type := CheckedExpr × List FoldError

/-- What is reported where an operation has no type. -/
def typingError (message : String) : Checked := (.fallbackInteger, [⟨.typing, message⟩])

/-- The negation of a constant. It is held against the range of `i64`, whatever the type of
the operand is. Source: checker.rs:13053-13072 -/
def negateConstant (v : Int) : Option Int × List FoldError :=
  match checked128 (-v) with
  | none => (none, [⟨.overflow, "integer negation overflows in constant expression"⟩])
  | some negative =>
    if valueFitsType negative .i64 then (some negative, [])
    else (none, [⟨.overflow, "negative integer literal does not fit in i64"⟩])

/-- Source: checker.rs:13026-13126 -/
def checkUnary (op : UnaryOp) (c : CheckedExpr) : Checked :=
  match op with
  | .neg =>
    match c.ty with
    | .int t =>
      if t.isSigned = false ∧ c.flexibleInteger = false then
        typingError ("unary '-' cannot be applied to unsigned type " ++ c.ty.display)
      else
        let ty := if c.flexibleInteger then IntTy.i64 else t
        match c.intConstant with
        | some v => (.new (.unary .neg c.expr) (.int ty) ((negateConstant v).1.map .int),
            (negateConstant v).2)
        | none => (.new (.unary .neg c.expr) (.int ty) none, [])
    | ty => typingError ("unary '-' requires a numeric operand, got " ++ ty.display)
  | .not =>
    let errors : List FoldError := match c.ty with
      | .bool => []
      | ty => [⟨.typing, "unary '!' must be bool, got " ++ ty.display⟩]
    let constant := match c.constant with
      | some (.bool b) => some (TypedConst.bool (!b))
      | _ => none
    (.new (.unary .not c.expr) .bool constant, errors)

/-- The node of a binary operator. -/
def binaryNode (op : BinaryOp) (l r : CheckedExpr) (ty : Ty) (constant : Option TypedConst) :
    CheckedExpr := .new (.binary op l.expr r.expr true) ty constant

/-- An operator on two integers of a common type; `zero` is what is reported of a divisor
that is known to be zero. -/
def checkIntegerNode (noun : String) (zero : Option String) (op : BinaryOp)
    (lhs rhs : CheckedExpr) : Checked :=
  match promotedType noun lhs rhs with
  | .error message => typingError message
  | .ok t =>
    let l := coerceNumericOperand lhs t
    let r := coerceNumericOperand rhs t
    match zero, r.intConstant with
    | some message, some 0 => (binaryNode op l r (.int t) none, [⟨.division, message⟩])
    | _, _ =>
      match l.intConstant, r.intConstant with
      | some a, some b =>
        (binaryNode op l r (.int t) ((evalIntegerBinaryReporting op a b t).1.map .int),
          (evalIntegerBinaryReporting op a b t).2)
      | _, _ => (binaryNode op l r (.int t) none, [])

/-- Source: checker.rs:13227-13277 -/
def checkNumericBinary (op : BinaryOp) : CheckedExpr → CheckedExpr → Checked :=
  checkIntegerNode "numeric"
    (if op = .div then some "division by zero in constant expression" else none) op

/-- Source: checker.rs:13279-13322 -/
def checkIntegerRemainder : CheckedExpr → CheckedExpr → Checked :=
  checkIntegerNode "an integer" (some "remainder by zero in constant expression") .rem

/-- Source: checker.rs:13324-13365 -/
def checkIntegerBitwise (op : BinaryOp) : CheckedExpr → CheckedExpr → Checked :=
  checkIntegerNode "an integer" none op

/-- What is reported of a shift count that is known.
Source: checker.rs:13392-13412 -/
def shiftCountErrors (t : IntTy) (count : Int) : List FoldError :=
  (if count < 0 then [⟨.shift, "shift count cannot be negative"⟩] else []) ++
    if (t.bits : Int) ≤ count then
      [⟨.shift, "shift count must be less than " ++ toString t.bits ++ " for " ++
        (Ty.int t).display⟩]
    else []

/-- What is reported of a left operand that is known. Source: checker.rs:13414-13423 -/
def shiftOperandErrors (op : BinaryOp) (t : IntTy) (value : Int) : List FoldError :=
  if op = .shl ∧ t.isSigned = true ∧ value < 0 then
    [⟨.shift, "left shift of a negative signed value is not allowed"⟩]
  else []

/-- Source: checker.rs:13367-13443 -/
def checkShift (op : BinaryOp) (lhs rhs : CheckedExpr) : Checked :=
  match lhs.ty, rhs.ty with
  | .int t, .int _ =>
    let guards := (rhs.intConstant.map (shiftCountErrors t)).getD [] ++
      (lhs.intConstant.map (shiftOperandErrors op t)).getD []
    match lhs.intConstant, rhs.intConstant with
    | some value, some count =>
      if 0 ≤ count ∧ count < t.bits then
        (binaryNode op lhs rhs (.int t) ((evalShiftReporting op value count t).1.map .int),
          guards ++ (evalShiftReporting op value count t).2)
      else (binaryNode op lhs rhs (.int t) none, guards)
    | _, _ => (binaryNode op lhs rhs (.int t) none, guards)
  | .int _, ty => typingError ("shift count must be an integer, got " ++ ty.display)
  | ty, _ => typingError ("shift left operand must be an integer, got " ++ ty.display)

/-- The comparison of two integers, brought to a common type. -/
def checkComparison (op : BinaryOp) (lhs rhs : CheckedExpr) : Checked :=
  match promotedType "numeric" lhs rhs with
  | .error message => (.fallback .bool, [⟨.typing, message⟩])
  | .ok t =>
    let l := coerceNumericOperand lhs t
    let r := coerceNumericOperand rhs t
    let constant := match l.intConstant, r.intConstant with
      | some a, some b => (compareIntegers op a b).map .bool
      | _, _ => none
    (binaryNode op l r .bool constant, [])

/-- Source: checker.rs:13488-13540 -/
def checkNumericComparison (op : BinaryOp) : CheckedExpr → CheckedExpr → Checked :=
  checkComparison op

/-- Source: checker.rs:13542-13582, 13850-13890 -/
def checkEquality (op : BinaryOp) (lhs rhs : CheckedExpr) : Checked :=
  match lhs.ty, rhs.ty with
  | .bool, .bool =>
    let constant := match lhs.constant, rhs.constant with
      | some (.bool a), some (.bool b) => some (.bool (if op = .eq then a == b else a != b))
      | _, _ => none
    (binaryNode op lhs rhs .bool constant, [])
  | .bool, _ | _, .bool =>
    (binaryNode op lhs rhs .bool none,
      [⟨.typing, "equality operands must both be bool or both be numeric, got " ++
        lhs.ty.display ++ " and " ++ rhs.ty.display⟩])
  | _, _ => checkComparison op lhs rhs

/-- Source: checker.rs:13176-13225 -/
def checkBinary (op : BinaryOp) (lhs rhs : CheckedExpr) : Option Checked :=
  match op with
  | .add | .sub | .mul | .div => some (checkNumericBinary op lhs rhs)
  | .rem => some (checkIntegerRemainder lhs rhs)
  | .shl | .shr => some (checkShift op lhs rhs)
  | .bitAnd | .bitOr | .bitXor => some (checkIntegerBitwise op lhs rhs)
  | .lt | .le | .gt | .ge => some (checkNumericComparison op lhs rhs)
  | .eq | .ne => some (checkEquality op lhs rhs)
  | .and | .or => none

/-- Source: checker.rs:21811-21844 -/
def explicitCast (c : CheckedExpr) (target : IntTy) : Checked :=
  let node := CheckedExpr.new (.cast c.expr (.int target)) (.int target)
  match c.ty with
  | .int t =>
    if t = target then (node c.constant, [])
    else match c.intConstant with
      | some v => match castInteger target (.int v) with
        | some constant => (node (some constant), [])
        | none => (node none, [⟨.overflow, "constant value " ++ toString v ++
            " cannot be represented as " ++ (Ty.int target).display⟩])
      | none => (node none, [])
  | ty => (.fallback (.int target),
      [⟨.typing, "cannot cast " ++ ty.display ++ " to " ++ (Ty.int target).display⟩])

/-! ## Expressions -/

/-- The leaves: a literal, and a name that stands for a constant. A named constant is
replaced by its value. Source: checker.rs:10337-10353, 10374-10431 -/
def checkLiteral (v : Int) : Checked :=
  ({ CheckedExpr.new (.int v) (.int (if v ≤ IntTy.maxValue .i64 then .i64 else .u64))
      (some (.int v)) with flexibleInteger := true },
    if valueFitsType v .u64 then []
    else [⟨.overflow, "integer literal '" ++ toString v ++ "' does not fit in u64"⟩])

def checkName (name : String) (info : ConstInfo) : CheckedExpr :=
  .new (if info.isConst then .int info.value else .var name) (.int info.ty)
    (some (.int info.value))

/-- The check of a constant expression; other forms have their own.
Source: checker.rs:10331-10431, 11381-11395 -/
def checkExpr (env : ConstEnv) : Expr → Option Checked
  | .int v => some (checkLiteral v)
  | .var name => (env name).map fun info => (checkName name info, [])
  | .unary op e => (checkExpr env e).map fun (c, errors) =>
    ((checkUnary op c).1, errors ++ (checkUnary op c).2)
  | .binary op l r =>
    match checkExpr env l, checkExpr env r with
    | some (cl, el), some (cr, er) =>
      (checkBinary op cl cr).map fun (c, errors) => (c, el ++ er ++ errors)
    | _, _ => none
  | .cast e (.int t) => (checkExpr env e).map fun (c, errors) =>
    ((explicitCast c t).1, errors ++ (explicitCast c t).2)
  | _ => none

end Vani.Program
