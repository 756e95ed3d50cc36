import Vani.Program.ConstFold

/-!
# Run-time values and stores

The values a program computes with, the store that holds them scope by scope, and
what the model leaves open about the machine: arithmetic outside the range of its
type, floating point, and the meaning of calls. A store also keeps ghost entries, the
earlier contents of arrays under the versioned names the verifier gives them
(`xs#0`, `xs#1`, …); no source identifier contains `#`.
-/

set_option autoImplicit false

namespace Vani.Model

open Vani.Program

/-- A run-time value. Integers carry the type they are computed at, as the typed
program does. -/
inductive Value
  | scalar (s : Scalar)
  | str (text : String)
  | seq (elements : List Value)
  | tuple (elements : List Value)
  | struct (name : String) (fields : List (String × Value))
  | enum (enumName variant : String) (payload : List Value)
  | fn (name : String)
  | handle (id : Nat)

namespace Value

/-- A bound value is no longer a flexible literal. -/
def settle : Value → Value
  | scalar s => scalar s.settle
  | v => v

/-- `true` as a value. -/
def isTrue (v : Value) : Prop := v = scalar (.bool true)

/-- Equality of two scalars, given the equality of float bit patterns. -/
def eqvScalar (floatEq : Nat → Nat → Bool) : Scalar → Scalar → Bool
  | .int _ _ a, .int _ _ b => decide (a = b)
  | .float _ _ a, .float _ _ b => floatEq a b
  | .bool a, .bool b => a == b
  | _, _ => false

mutual

/-- Equality of values as `==` sees it: integer types are ignored (both sides were
converted to a common type), floats are compared by `floatEq`. -/
def eqv (floatEq : Nat → Nat → Bool) : Value → Value → Bool
  | scalar a, scalar b => eqvScalar floatEq a b
  | str a, str b => a == b
  | seq as, seq bs => eqvList floatEq as bs
  | tuple as, tuple bs => eqvList floatEq as bs
  | struct n as, struct m bs => n == m && eqvFields floatEq as bs
  | enum e v ps, enum e' v' ps' => e == e' && v == v' && eqvList floatEq ps ps'
  | fn a, fn b => a == b
  | handle a, handle b => a == b
  | _, _ => false

/-- `eqv` elementwise. -/
def eqvList (floatEq : Nat → Nat → Bool) : List Value → List Value → Bool
  | [], [] => true
  | a :: as, b :: bs => eqv floatEq a b && eqvList floatEq as bs
  | _, _ => false

/-- `eqv` field by field. -/
def eqvFields (floatEq : Nat → Nat → Bool) :
    List (String × Value) → List (String × Value) → Bool
  | [], [] => true
  | (f, a) :: as, (g, b) :: bs => f == g && eqv floatEq a b && eqvFields floatEq as bs
  | _, _ => false

end

/-- The bit pattern of a NaN. -/
def isNaN (bits : Nat) : Bool :=
  bits / 2 ^ 52 % 2 ^ 11 == 2047 && bits % 2 ^ 52 != 0

/-- IEEE equality of two bit patterns: NaN differs from itself, the zeros agree. -/
def ieeeEq (a b : Nat) : Bool :=
  !isNaN a && !isNaN b && (a == b || (a % 2 ^ 63 == 0 && b % 2 ^ 63 == 0))

/-- The place of a bit pattern in the order of the floats, the zeros together. -/
def floatKey (bits : Nat) : Int :=
  if bits < 2 ^ 63 then bits else -(bits - 2 ^ 63 : Int)

/-- IEEE comparison of two bit patterns: no ordering holds of a NaN. -/
def compareFloats (op : BinaryOp) (a b : Nat) : Option Bool :=
  let ordered := !isNaN a && !isNaN b
  match op with
  | .eq => some (ieeeEq a b)
  | .ne => some (!ieeeEq a b)
  | .lt => some (ordered && decide (floatKey a < floatKey b))
  | .le => some (ordered && decide (floatKey a ≤ floatKey b))
  | .gt => some (ordered && decide (floatKey b < floatKey a))
  | .ge => some (ordered && decide (floatKey b ≤ floatKey a))
  | _ => none

/-- Run-time `==`. -/
def beq (a b : Value) : Bool := eqv ieeeEq a b

/-- Equality of contents, bit for bit: the `=` of SMT arrays. -/
def same (a b : Value) : Bool := eqv (fun x y => x == y) a b

mutual

/-- Run-time `==` of values that are not both scalars or both strings. Two values of one
nominal type are compared by the `eq` of its `implement Eq`, which is `nominal`; tuples
element by element, up to the first difference. Source: checker.rs:13612-13850 -/
def eqWith (nominal : Value → Value → Option Bool) : Value → Value → Option Bool
  | scalar a, scalar b => some (eqvScalar ieeeEq a b)
  | seq as, seq bs => eqWithList nominal as bs
  | tuple as, tuple bs => eqWithList nominal as bs
  | struct n as, struct m bs => nominal (struct n as) (struct m bs)
  | enum e v ps, enum e' v' ps' => nominal (enum e v ps) (enum e' v' ps')
  | a, b => some (beq a b)

/-- `eqWith` elementwise. -/
def eqWithList (nominal : Value → Value → Option Bool) :
    List Value → List Value → Option Bool
  | [], [] => some true
  | a :: as, b :: bs =>
    match eqWith nominal a b with
    | some true => eqWithList nominal as bs
    | other => other
  | _, _ => some false

end

/-- Slot by slot, `new` is `old` with slot `k` set to `v`: the SMT `store`, read on the
slots `new` has. -/
def isStore (new old : List Value) (k : Int) (v : Value) : Bool :=
  (List.range new.length).all fun j =>
    match new[j]? with
    | none => false
    | some x =>
      if (j : Int) = k then same x v
      else match old[j]? with
        | some y => same x y
        | none => false

end Value

/-- What the model leaves open about the machine and the callees. `scalarElse` is the
result of arithmetic where the exact result does not fit its type (wrapping, or `none`
for a trap), `floatFold` is `f64` arithmetic, `castElse` converts the remaining types.
A call maps its argument values to a result and to the new values of the arguments it
received by `mut ref`; a pure one neither reads nor changes the world `W`. -/
structure Prims (W : Type) where
  scalarElse : ScalarOp → List Scalar → Option Scalar
  floatFold : ScalarOp → List Scalar → Option Scalar
  castElse : Ty → Value → Option Value
  /-- Whether a callee is known to be free of effects on the world. -/
  isPure : String → Bool
  pureCall : String → List Value → Option (Value × List Value)
  call : String → List Value → W → Option (Value × List Value × W)
  /-- Whether a method takes its receiver by `mut ref`. -/
  mutRecv : String → Bool
  /-- What the `eq` of an `implement Eq` says of two values of its type. -/
  nominalEq : Value → Value → Option Bool := fun a b => some (Value.beq a b)

namespace Prims

variable {W : Type} (P : Prims W)

/-- A folded result, or else what the machine makes of the operands. -/
def orElse (op : ScalarOp) (args : List Scalar) (folded : Option Scalar) : Option Scalar :=
  match folded with
  | some s => some s
  | none => P.scalarElse op args

/-- Negation is exact where the result fits the operand's own type. -/
def runNeg (t : IntTy) (flexible : Bool) (v : Int) : Option Scalar :=
  let t' := if flexible then .i64 else t
  if valueFitsType (-v) t' then some (.int t' false (-v))
  else P.scalarElse (.unary .neg) [.int t flexible v]

/-- Run-time unary operators. -/
def runUnary (op : UnaryOp) (v : Value) : Option Value :=
  match op, v with
  | .neg, .scalar (.int t flexible n) => (P.runNeg t flexible n).map Value.scalar
  | .neg, .scalar s => (P.orElse (.unary .neg) [s] (foldUnary P.floatFold .neg s)).map Value.scalar
  | .not, .scalar (.bool b) => some (.scalar (.bool (!b)))
  | _, _ => none

/-- Run-time binary operators other than `&&` and `||`: exact wherever the exact result
fits the type of the operation. -/
def runBinary (op : BinaryOp) (a b : Value) : Option Value :=
  match a, b with
  | .scalar (.bool l), .scalar (.bool r) =>
    (foldBinary P.floatFold op (.bool l) (.bool r)).map Value.scalar
  | .scalar l, .scalar r =>
    (P.orElse (.binary op) [l, r] (foldBinary P.floatFold op l r)).map Value.scalar
  | .str l, .str r =>
    match op with
    | .add => some (.str (l ++ r))
    | .eq => some (.scalar (.bool (l == r)))
    | .ne => some (.scalar (.bool (l != r)))
    | .lt => some (.scalar (.bool (decide (l < r))))
    | .le => some (.scalar (.bool (!decide (r < l))))
    | .gt => some (.scalar (.bool (decide (r < l))))
    | .ge => some (.scalar (.bool (!decide (l < r))))
    | _ => none
  | l, r =>
    match op with
    | .eq => (Value.eqWith P.nominalEq l r).map fun b => .scalar (.bool b)
    | .ne => (Value.eqWith P.nominalEq l r).map fun b => .scalar (.bool (!b))
    | _ => none

/-- Integer operands are folded wherever folding is defined. -/
theorem runBinary_of_fold {op : BinaryOp} {t t' : IntTy} {b b' : Bool} {x y : Int} {s : Scalar}
    (h : foldBinary P.floatFold op (.int t b x) (.int t' b' y) = some s) :
    P.runBinary op (.scalar (.int t b x)) (.scalar (.int t' b' y)) = some (.scalar s) := by
  have hrun : P.runBinary op (.scalar (.int t b x)) (.scalar (.int t' b' y)) =
      (P.orElse (.binary op) [.int t b x, .int t' b' y]
        (foldBinary P.floatFold op (.int t b x) (.int t' b' y))).map Value.scalar := rfl
  rw [hrun, h]
  rfl

/-- Run-time conversions. -/
def runCast (target : Ty) (v : Value) : Option Value :=
  match v with
  | .scalar s =>
    (P.orElse (.cast target) [s] (foldCast P.floatFold target s)).map Value.scalar
  | v => P.castElse target v

end Prims

/-- A machine without callees on which every arithmetic overflow traps. -/
def Prims.bare : Prims Unit where
  scalarElse _ _ := none
  floatFold _ _ := none
  castElse _ _ := none
  isPure _ := false
  pureCall _ _ := none
  call _ _ _ := none
  mutRecv _ := false

/-- One scope of the store. -/
abbrev Scope : Type := String → Option Value

/-- A store: the open scopes, innermost first, the ghost entries for earlier array
contents, and the rest of the world. -/
structure Store (W : Type) where
  scopes : List Scope
  ghosts : Scope
  world : W

/-- The innermost binding of a name. Source: checker.rs:110-112 -/
def lookupScopes : List Scope → String → Option Value
  | [], _ => none
  | s :: rest, name =>
    match s name with
    | some v => some v
    | none => lookupScopes rest name

/-- Overwrite the innermost binding of a name. Source: checker.rs:114-121 -/
def assignScopes : List Scope → String → Value → List Scope
  | [], _, _ => []
  | s :: rest, name, v =>
    match s name with
    | some _ => Function.update s name (some v) :: rest
    | none => s :: assignScopes rest name v

namespace Store

variable {W : Type}

/-- A name's value; versioned names are found among the ghosts. -/
def lookup (σ : Store W) (name : String) : Option Value :=
  match lookupScopes σ.scopes name with
  | some v => some v
  | none => σ.ghosts name

/-- Open a scope. -/
def push (σ : Store W) : Store W := { σ with scopes := (fun _ => none) :: σ.scopes }

/-- Close the innermost scope. -/
def pop (σ : Store W) : Store W := { σ with scopes := σ.scopes.tail }

/-- Bind a name in the innermost scope. -/
def declare (σ : Store W) (name : String) (v : Value) : Store W :=
  match σ.scopes with
  | [] => σ
  | s :: rest => { σ with scopes := Function.update s name (some v) :: rest }

/-- Overwrite an existing binding. -/
def assign (σ : Store W) (name : String) (v : Value) : Store W :=
  { σ with scopes := assignScopes σ.scopes name v }

/-- Remember array contents under a versioned name. -/
def snapshot (σ : Store W) (name : String) (v : Value) : Store W :=
  { σ with ghosts := Function.update σ.ghosts name (some v) }

end Store

end Vani.Model
