import Vani.Program.TypeDecls

/-!
# The names in a query to the solver

A query declares constants for the bindings in scope: the value of a scalar, the length of a
vector, each version of a sequence with scalar elements. Their names are made from the names of
the bindings, to which the checker adds names of its own, for the fields of struct literals and
for calls. Of the encoding of expressions only the names matter here: which constant a variable,
a length or an element stands for.
-/

set_option autoImplicit false

namespace Vani.Program

/-! ## Sorts -/

/-- Source: ast.rs:803-815 -/
def Ty.isInteger : Ty → Bool
  | .int _ => true
  | _ => false

/-- Source: ast.rs:825-827 -/
def Ty.isFloat : Ty → Bool
  | .float _ => true
  | _ => false

/-- Source: smt.rs:751-753 -/
def supportedSort (ty : Ty) : Bool :=
  ty.isInteger || ty.isFloat || match ty with
    | .bool => true
    | _ => false

/-- The sort of an integer, a float or a Boolean. Source: smt.rs:626-641, 787-795, 834-840 -/
def sortOf : Ty → String
  | .int t => "(_ BitVec " ++ toString t.bits ++ ")"
  | .float .f32 => "(_ FloatingPoint 8 24)"
  | .float .f64 => "(_ FloatingPoint 11 53)"
  | _ => "Bool"

/-- Whether a binding is a vector, also behind references. Source: smt.rs:590 -/
def isVector (ty : Ty) : Bool :=
  match ty.deref with
  | .vec _ => true
  | _ => false

/-- Source: smt.rs:760-769 -/
def smtArrayElement (ty : Ty) : Option Ty :=
  match ty.deref with
  | .vec elem | .array elem _ => if supportedSort elem then some elem else none
  | _ => none

/-! ## Names of constants -/

/-- Source: smt.rs:851-862 -/
def sanitize (name : String) : String :=
  "v_" ++ name.map fun ch => if ch.isAlphanum || ch == '_' then ch else '_'

/-- What a constant of a query stands for. -/
inductive Constant
  | value (name : String)
  | length (name : String)
  | version (name : String) (k : Nat)
  deriving DecidableEq

/-- Source: smt.rs:591, 599, 799-802, 830 -/
def Constant.symbol : Constant → String
  | value name => sanitize name
  | length name => sanitize name ++ "_len"
  | version name k => "arr_" ++ sanitize name ++ "_v" ++ toString k

/-! ## Declarations -/

/-- The current version of each sequence. Source: checker.rs:152-164 -/
abbrev Versions := List (String × Nat)

def Versions.current (versions : Versions) (name : String) : Nat :=
  (versions.lookup name).getD 0

/-- The length of a vector. Source: smt.rs:590-593 -/
def lengthDeclaration (name : String) (ty : Ty) : List (Constant × String) :=
  if isVector ty then [(.length name, "(_ BitVec 64)")] else []

/-- Source: smt.rs:778-806 -/
def versionedArrayDeclarations (versions : Versions) (name : String) (ty : Ty) :
    List (Constant × String) :=
  match smtArrayElement ty with
  | some elem => (List.range (versions.current name + 1)).map fun v =>
      (.version name v, "(Array (_ BitVec 64) " ++ sortOf elem ++ ")")
  | none => []

/-- Source: smt.rs:596-616 -/
def valueDeclaration (name : String) (ty : Ty) : List (Constant × String) :=
  if supportedSort ty then [(.value name, sortOf ty)] else []

/-- What a binding declares. Source: smt.rs:578-617 -/
def declare (versions : Versions) (x : String × Ty) : List (Constant × String) :=
  lengthDeclaration x.1 x.2 ++ versionedArrayDeclarations versions x.1 x.2 ++
    valueDeclaration x.1 x.2

/-- Source: smt.rs:592, 602-615, 798-804 -/
def declareConst (c : Constant × String) : String :=
  "(declare-const " ++ c.1.symbol ++ " " ++ c.2 ++ ")\n"

/-- Everything a query declares, in order. Source: smt.rs:578-617 -/
def declarations (versions : Versions) (vars : List (String × Ty)) : List (Constant × String) :=
  vars.flatMap (declare versions)

/-- The part of a query before its assertions. Source: smt.rs:576-617 -/
def queryHeader (versions : Versions) (vars : List (String × Ty)) : String :=
  "(set-logic ALL)\n" ++ String.join ((declarations versions vars).map declareConst)

/-! ## Names in expressions -/

/-- The type recorded last for a name. Source: smt.rs:577-583 -/
def recordedType (vars : List (String × Ty)) (name : String) : Option Ty :=
  vars.reverse.lookup name

/-- The value of a list of digits, if it is below `2 ^ 32`; one `+` may stand before them. -/
def parseU32 (text : List Char) : Option Nat :=
  let digits := match text with
    | '+' :: rest => rest
    | _ => text
  if digits.isEmpty || !digits.all Char.isDigit then none
  else
    let value := digits.foldl (fun acc c => acc * 10 + (c.toNat - '0'.toNat)) 0
    if value < 2 ^ 32 then some value else none

/-- What stands before and after the last `#`. -/
def rsplitOnce (text : List Char) : Option (List Char × List Char) :=
  let after := text.reverse.takeWhile (· != '#')
  match text.reverse.dropWhile (· != '#') with
  | _ :: before => some (before.reverse, after.reverse)
  | [] => none

/-- Source: smt.rs:811-818 -/
def parseVersionedName (s : String) : String × Option Nat :=
  match rsplitOnce s.toList with
  | some (base, ver) =>
    match parseU32 ver with
    | some v => (String.ofList base, some v)
    | none => (s, none)
  | none => (s, none)

/-- Source: smt.rs:824-831 -/
def smtArrayNameFor (versions : Versions) (name : String) : Constant :=
  let (base, explicit) := parseVersionedName name
  .version base (explicit.getD (versions.current base))

/-- Where a name stands in an expression that is encoded. -/
inductive Mention
  /-- A variable -/
  | var (name : String)
  /-- `len(name)` -/
  | len (name : String)
  /-- `name[index]` -/
  | index (name : String)
  /-- The result of `set`, equal to the base but for one element -/
  | storeEq (result base : String)
  /-- The result of `clone`, equal to the base -/
  | arrayEq (result base : String)

/-- The constants that stand for a name in an expression; a length of an array is a number and
needs none. Source: smt.rs:975-997, 1134-1157, 1181-1233, 1250-1270 -/
def encodeMention (versions : Versions) (vars : List (String × Ty)) :
    Mention → Except String (List Constant)
  | .var name =>
    if name.contains '#' then
      .error ("versioned name '" ++ name ++ "' not valid in scalar position")
    else match recordedType vars name with
      | none => .error ("variable '" ++ name ++
          "' is not declared in the SMT context (type may be unsupported)")
      | some ty =>
        if supportedSort ty then .ok [.value name]
        else .error ("variable '" ++ name ++ "' has unsupported type " ++ ty.display ++ " for SMT")
  | .len name =>
    let base := (parseVersionedName name).1
    match (recordedType vars base).map Ty.deref with
    | some (.array _ _) => .ok []
    | some (.vec _) => .ok [.length base]
    | _ => .error "len() in proofs requires a named array/Vec binding"
  | .index name =>
    match recordedType vars (parseVersionedName name).1 with
    | none => .error ("no SMT model for indexed binding '" ++ name ++ "'")
    | some ty =>
      if (smtArrayElement ty).isSome then .ok [smtArrayNameFor versions name]
      else .error ("indexed binding '" ++ name ++ "' has unsupported element type")
  | .storeEq result base =>
    match recordedType vars (parseVersionedName result).1 with
    | none => .error ("no SMT model for result '" ++ result ++ "'")
    | some ty =>
      if (smtArrayElement ty).isSome then
        .ok [smtArrayNameFor versions result, smtArrayNameFor versions base]
      else .error ("result '" ++ result ++ "' has unsupported element type")
  | .arrayEq result base =>
    if ((recordedType vars (parseVersionedName result).1).bind smtArrayElement).isSome then
      .ok [smtArrayNameFor versions result, smtArrayNameFor versions base]
    else .error ("result '" ++ result ++ "' is not an SMT array binding")

/-! ## The variables of a query -/

/-- A binding in scope, with the fields that the struct literal gave it was bound to. -/
structure Binding where
  name : String
  ty : Ty
  structLiteralFields : Option (List String)

/-- What the checker makes a query from: the bindings in scope, further variables, the structs
of the program and the types of the calls it replaces. -/
structure QueryScope where
  bindings : List Binding
  extraVars : List (String × Ty)
  structs : List StructDecl
  calls : List Ty
  versions : Versions

namespace QueryScope

/-- A variable for each integer or Boolean field of a struct literal. Source: checker.rs:25213-25244 -/
def fieldVars (s : QueryScope) : List (String × Ty) :=
  s.bindings.flatMap fun b =>
    match b.structLiteralFields, b.ty with
    | some fields, .struct structName =>
      match s.structs.find? fun d => d.name == structName with
      | some d => fields.filterMap fun field =>
          match d.fields.reverse.lookup field with
          | some ty =>
            if ty.isInteger || match ty with | .bool => true | _ => false then
              some (b.name ++ "__" ++ field, ty)
            else none
          | none => none
      | none => []
    | _, _ => []

/-- A variable for the result of each call. Source: checker.rs:24355-24357, 24392-24397 -/
def freshVars (s : QueryScope) : List (String × Ty) :=
  s.calls.zipIdx.map fun call => ("__call_" ++ toString call.2, call.1)

/-- Source: checker.rs:25199-25203, 25257, 25315 -/
def vars (s : QueryScope) : List (String × Ty) :=
  s.bindings.map (fun b => (b.name, b.ty)) ++ s.extraVars ++ s.fieldVars ++ s.freshVars

end QueryScope

end Vani.Program
