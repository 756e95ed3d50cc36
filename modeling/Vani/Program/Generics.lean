import Vani.Backend.EmitNames
import Vani.Program.TypeAliases
import Vani.Program.StructuralProver

/-!
# Instances of generic functions

Before types are checked, one pass makes a copy of a generic function for every type it is called
with. It looks for the calls in the bodies of the functions that are not generic, takes the type
from the first argument, and keeps for that a flat table of the annotated names it has come by. A
second walk over the same bodies puts the names of the copies into the calls.
-/

set_option autoImplicit false

namespace Vani.Program

/-! ## Programs with generic functions -/

/-- Source: ast.rs:472-481 -/
structure WhereClause where
  typeParam : String
  interfaceName : String

/-- Source: ast.rs:532-573 -/
structure GenericFunction extends Function where
  typeParams : List String
  whereClauses : List WhereClause

/-- The program when its type declarations are no longer generic and its methods are functions.
Source: checker.rs:395-421 -/
structure GenericProgram where
  functions : List GenericFunction
  impls : List Implementation
  consts : List ConstDecl

namespace GenericProgram

def templates (p : GenericProgram) : List GenericFunction :=
  p.functions.filter fun f => !f.typeParams.isEmpty

/-- The functions that are not generic. -/
def plain (p : GenericProgram) : List GenericFunction :=
  p.functions.filter fun f => f.typeParams.isEmpty

/-- The generic function of a name; of several, the last one. Source: checker.rs:5276-5282 -/
def template (p : GenericProgram) (name : String) : Option GenericFunction :=
  p.templates.reverse.find? fun f => f.name == name

end GenericProgram

/-! ## Types of first arguments -/

/-- The types of the annotated names, the latest first. -/
abbrev TypeTable := List (String × Ty)

inductive GenericsError
  | unknownVariable (name : String)
  | complexArgument
  | unsatisfiedBound (fnName : String) (clause : WhereClause) (ty : Ty)
  | severalParams (fnName : String) (count : Nat)
  | neverCalled (fnName : String)

/-- Source: checker.rs:5316-5326, 5337-5342, 5405-5411, 5496-5502, 5508-5511 -/
def GenericsError.message (display : Ty → String) : GenericsError → String
  | unknownVariable name =>
    "cannot infer generic type parameter from variable '" ++ name ++ "' — the monomorphizer " ++
      "pre-pass only resolves bindings declared with a let-annotation or as a function " ++
      "parameter at the call site"
  | complexArgument =>
    "v1 generic-call inference supports literal arguments (integer / float / bool) or " ++
      "annotated variable bindings at the first position. More complex first-arg expressions " ++
      "need full type-checking context."
  | unsatisfiedBound fnName clause ty =>
    "generic function '" ++ fnName ++ "' requires `" ++ clause.typeParam ++ " is " ++
      clause.interfaceName ++ "`, but no `implement " ++ clause.interfaceName ++ " for " ++
      display ty ++ "` is in scope. Add the impl or pick a type that satisfies the bound."
  | severalParams fnName count =>
    "generic function '" ++ fnName ++ "' has " ++ toString count ++ " type parameters — v1 " ++
      "supports only one (T1.4 phase 2 follow-up)."
  | neverCalled fnName =>
    "generic function '" ++ fnName ++ "' is declared but never called with concrete types — " ++
      "monomorphization couldn't specialize it. Either call it from a non-generic call site or " ++
      "remove the declaration."

/-- The type of an argument, and what is said when there is none.
Source: checker.rs:5484-5515, 5575-5581 -/
def inferArgument (table : TypeTable) : Expr → Except GenericsError Ty
  | .int _ => .ok (.int .i64)
  | .float _ => .ok (.float .f64)
  | .bool _ => .ok .bool
  | .var name => match table.lookup name with
    | some ty => .ok ty
    | none => .error (.unknownVariable name)
  | _ => .error .complexArgument

/-! ## Looking for calls -/

/-- The instances that are needed, and the diagnostics. -/
structure Collected where
  needed : List (String × Ty)
  errors : List GenericsError

namespace Collected

/-- One more instance, unless it is there already. Source: checker.rs:5460-5464 -/
def need (c : Collected) (name : String) (ty : Ty) : Collected :=
  if c.needed.contains (name, ty) then c else { c with needed := c.needed ++ [(name, ty)] }

def report (c : Collected) (error : GenericsError) : Collected :=
  { c with errors := c.errors ++ [error] }

/-- A call of a generic function. Without arguments nothing happens.
Source: checker.rs:5455-5465, 5484-5486 -/
def call (c : Collected) (table : TypeTable) (name : String) (args : List Expr) : Collected :=
  match args with
  | [] => c
  | first :: _ => match inferArgument table first with
    | .ok ty => c.need name ty
    | .error error => c.report error

end Collected

section

variable (generics : String → Bool)

mutual

/-- Source: checker.rs:5446-5478 -/
def collectInExpr (table : TypeTable) : Expr → Collected → Collected
  | .call name args, c =>
    collectInExprs table args (if generics name then c.call table name args else c)
  | .binary _ l r, c => collectInExpr table r (collectInExpr table l c)
  | .unary _ e, c => collectInExpr table e c
  | _, c => c

def collectInExprs (table : TypeTable) : List Expr → Collected → Collected
  | [], c => c
  | e :: es, c => collectInExprs table es (collectInExpr table e c)

end

def collectInItems (table : TypeTable) : List PrintItem → Collected → Collected
  | [], c => c
  | .expr e :: items, c => collectInItems table items (collectInExpr generics table e c)
  | .str _ :: items, c => collectInItems table items c

/-- The table after the annotation of a `let`. Source: checker.rs:5431-5433, 5553-5555 -/
def TypeTable.annotate (table : TypeTable) (name : String) : Option Ty → TypeTable
  | some ty => (name, ty) :: table
  | none => table

mutual

/-- Source: checker.rs:5421-5462 -/
def collectInStmt : Stmt → TypeTable × Collected → TypeTable × Collected
  | .let_ name ann e, (table, c) =>
    (table.annotate name ann, collectInExpr generics table e c)
  | .assign _ e, (table, c) | .return_ e, (table, c) => (table, collectInExpr generics table e c)
  | .print items, (table, c) => (table, collectInItems generics table items c)
  | .if_ cond th el, (table, c) =>
    collectInStmts el (collectInStmts th (table, collectInExpr generics table cond c))
  | .while_ cond _ body, (table, c) =>
    collectInStmts body (table, collectInExpr generics table cond c)
  | _, state => state

def collectInStmts : List Stmt → TypeTable × Collected → TypeTable × Collected
  | [], state => state
  | s :: ss, state => collectInStmts ss (collectInStmt s state)

end

/-- The table a function starts with. Source: checker.rs:5297-5300, 5388-5391 -/
def paramTable (f : Function) : TypeTable :=
  f.params.foldl (fun table param => (param.name, param.ty) :: table) []

/-- Source: checker.rs:5290-5306 -/
def collectInFunction (f : Function) (c : Collected) : Collected :=
  (collectInStmts generics f.body (paramTable f, c)).2

/-! ## Rewriting calls -/

/-- Source: checker.rs:5369 -/
def instanceName (name : String) (ty : Ty) : String := name ++ "__" ++ Backend.typeMangle ty

/-- The name that a call has afterwards. Source: checker.rs:5574-5584 -/
def rewriteCall (table : TypeTable) (name : String) (args : List Expr) : String :=
  match args with
  | [] => name
  | first :: _ => match inferArgument table first with
    | .ok ty => if generics name then instanceName name ty else name
    | .error _ => name

mutual

/-- Source: checker.rs:5566-5606 -/
def rewriteExpr (table : TypeTable) : Expr → Expr
  | .call name args => .call (rewriteCall generics table name args) (rewriteExprs table args)
  | .binary op l r => .binary op (rewriteExpr table l) (rewriteExpr table r)
  | .unary op e => .unary op (rewriteExpr table e)
  | e => e

def rewriteExprs (table : TypeTable) : List Expr → List Expr
  | [] => []
  | e :: es => rewriteExpr table e :: rewriteExprs table es

end

def rewriteItems (table : TypeTable) : List PrintItem → List PrintItem
  | [] => []
  | .expr e :: items => .expr (rewriteExpr generics table e) :: rewriteItems table items
  | .str s :: items => .str s :: rewriteItems table items

mutual

/-- Source: checker.rs:5543-5590 -/
def rewriteStmt : Stmt → TypeTable → Stmt × TypeTable
  | .let_ name ann e, table =>
    (.let_ name ann (rewriteExpr generics table e), table.annotate name ann)
  | .assign name e, table => (.assign name (rewriteExpr generics table e), table)
  | .return_ e, table => (.return_ (rewriteExpr generics table e), table)
  | .print items, table => (.print (rewriteItems generics table items), table)
  | .if_ cond th el, table =>
    let then_ := rewriteStmts th table
    let else_ := rewriteStmts el then_.2
    (.if_ (rewriteExpr generics table cond) then_.1 else_.1, else_.2)
  | .while_ cond invariants body, table =>
    let body := rewriteStmts body table
    (.while_ (rewriteExpr generics table cond) invariants body.1, body.2)
  | s, table => (s, table)

def rewriteStmts : List Stmt → TypeTable → List Stmt × TypeTable
  | [], table => ([], table)
  | s :: ss, table =>
    let first := rewriteStmt s table
    let rest := rewriteStmts ss first.2
    (first.1 :: rest.1, rest.2)

end

/-- Source: checker.rs:5383-5395 -/
def rewriteFunction (f : GenericFunction) : GenericFunction :=
  { f with body := (rewriteStmts generics f.body (paramTable f.toFunction)).1 }

end

/-! ## Copies -/

mutual

/-- A type parameter replaced in a type, where the pass finds it. Source: checker.rs:6329-6358 -/
def substituteTypeParam (param : String) (concrete : Ty) : Ty → Ty
  | .param n => if n = param then concrete else .param n
  | .vec inner => .vec (substituteTypeParam param concrete inner)
  | .ref inner => .ref (substituteTypeParam param concrete inner)
  | .refMut inner => .refMut (substituteTypeParam param concrete inner)
  | .atomic inner => .atomic (substituteTypeParam param concrete inner)
  | .mutex inner => .mutex (substituteTypeParam param concrete inner)
  | .guard inner => .guard (substituteTypeParam param concrete inner)
  | .array element length => .array (substituteTypeParam param concrete element) length
  | .channel inner capacity => .channel (substituteTypeParam param concrete inner) capacity
  | .tuple elements => .tuple (substituteTypeParams param concrete elements)
  | .fnPtr params ret =>
    .fnPtr (substituteTypeParams param concrete params) (substituteTypeParam param concrete ret)
  | .apply name args => .apply name (substituteTypeParams param concrete args)
  | t => t

def substituteTypeParams (param : String) (concrete : Ty) : List Ty → List Ty
  | [] => []
  | t :: ts => substituteTypeParam param concrete t :: substituteTypeParams param concrete ts

end

section

variable (param : String) (concrete : Ty)

mutual

/-- Source: checker.rs:6360-6385 -/
def substituteTypeParamInStmt : Stmt → Stmt
  | .let_ name ann e => .let_ name (ann.map (substituteTypeParam param concrete)) e
  | .letTuple names ann e => .letTuple names (ann.map (substituteTypeParam param concrete)) e
  | .if_ cond th el =>
    .if_ cond (substituteTypeParamInStmts th) (substituteTypeParamInStmts el)
  | .while_ cond invariants body => .while_ cond invariants (substituteTypeParamInStmts body)
  | s => s

def substituteTypeParamInStmts : List Stmt → List Stmt
  | [] => []
  | s :: ss => substituteTypeParamInStmt s :: substituteTypeParamInStmts ss

end

end

/-- The copy of a generic function for a type. Source: checker.rs:5368-5381 -/
def specialise (f : GenericFunction) (param : String) (concrete : Ty) : GenericFunction where
  name := instanceName f.name concrete
  typeParams := []
  whereClauses := []
  params := f.params.map fun p => { p with ty := substituteTypeParam param concrete p.ty }
  returnType := substituteTypeParam param concrete f.returnType
  requires := f.requires
  ensures := f.ensures
  body := substituteTypeParamInStmts param concrete f.body
  isPure := f.isPure

namespace GenericProgram

/-- The bounds of a generic function that no implementation satisfies.
Source: checker.rs:5313-5330 -/
def unsatisfied (p : GenericProgram) (f : GenericFunction) (ty : Ty) : List WhereClause :=
  f.whereClauses.filter fun clause =>
    !p.impls.any fun imp => imp.interfaceName == clause.interfaceName && imp.forType == ty

/-- The copy for a needed instance, or what is said against it. Source: checker.rs:5307-5382 -/
def instantiate (p : GenericProgram) (name : String) (ty : Ty) :
    List GenericFunction × List GenericsError :=
  match p.template name with
  | none => ([], [])
  | some f =>
    if p.unsatisfied f ty ≠ [] then
      ([], (p.unsatisfied f ty).map (.unsatisfiedBound name · ty))
    else match f.typeParams with
      | [param] => ([specialise f param ty], [])
      | _ => ([], [.severalParams name f.typeParams.length])

/-- What the walk over the functions that are not generic finds. Source: checker.rs:5283-5306 -/
def collect (p : GenericProgram) : Collected :=
  p.plain.foldl (fun c f => collectInFunction (fun n => (p.template n).isSome) f.toFunction c)
    ⟨[], []⟩

/-- The generic functions without a copy. Source: checker.rs:5398-5417 -/
def deadGenerics (p : GenericProgram) (needed : List (String × Ty)) : List GenericsError :=
  ((p.templates.map fun f => f.name).dedup.filter fun name =>
    !(needed.map Prod.fst).contains name).map .neverCalled

/-- The program with the copies in the place of the generic functions, and the diagnostics.
Source: checker.rs:5270-5421 -/
def monomorphizeGenerics (p : GenericProgram) : GenericProgram × List GenericsError :=
  if p.templates.isEmpty then (p, [])
  else
    let c := p.collect
    let copies := c.needed.map fun (name, ty) => p.instantiate name ty
    ({ p with functions := p.plain.map (rewriteFunction fun n => (p.template n).isSome) ++
        copies.flatMap Prod.fst },
      c.errors ++ copies.flatMap Prod.snd ++ p.deadGenerics c.needed)

end GenericProgram

end Vani.Program
